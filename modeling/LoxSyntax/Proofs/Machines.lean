import LoxSyntax.Machine
import LoxSyntax.Proofs.Moves
import LoxSyntax.Proofs.Tapes

/-!
The machine reads what the grammar reads. A run of the machine is compared with a way to read the
stream that the tape shows: it has a result, which is that of the reading, and it leaves the
tape where the reading leaves the stream and the depth as it was. That is shown of every rule, from
the steps up to the whole program; the room for nesting that a rule of the grammar has left is
what the depth of the machine leaves of the limit.
-/

namespace LoxSyntax

/-- Kinds of tokens may be tried one after the other. -/
theorem TokenStream.take?_append (s : TokenStream) (kinds more : List Kind) :
    s.take? (kinds ++ more) = (s.take? kinds).or (s.take? more) := by
  unfold take? sees
  cases s.pending.head? with
  | none => rfl
  | some t =>
    simp only [Option.any_some, List.contains_append]
    by_cases hkind : kinds.contains t.kind = true
    · rw [if_pos hkind, if_pos (by rw [hkind, Bool.true_or])]
      rfl
    · rw [if_neg hkind, Bool.eq_false_iff.2 hkind, Bool.false_or]
      rfl

theorem TokenStream.atBoundary_eq (s : TokenStream) :
    s.atBoundary = (s.atEnd || (s.previous?.any (·.kind = .symbol .semicolon) ||
      (statementWords.map Kind.word).contains s.peek.kind)) := by
  unfold atBoundary atEnd sees peek
  cases s.pending with
  | nil => rfl
  | cons t rest => exact Bool.or_assoc _ _ _

namespace Machine

variable {α β : Type}

/-- The machine when the stream that its tape shows, `s`, has become `r`. -/
def moved (m : Machine) (s r : TokenStream) : Machine := { m with tape := m.tape.moved s r }

/-- The machine with one more event in its log. -/
def noted (m : Machine) (event : Event) : Machine := { m with tape := m.tape.note event }

theorem moved_moved {m : Machine} {s r q : TokenStream} {a b : List Token} (h : s.After a r)
    (g : r.After b q) : (m.moved s r).moved r q = m.moved s q :=
  congrArg (fun tape => { m with tape }) (TokenTape.moved_moved h g)

theorem moved_self {m : Machine} {s : TokenStream} (hm : m.tape.Shows s) : m.moved s s = m :=
  congrArg (fun tape => { m with tape }) hm.moved_self

theorem run_bind (run : Run α) (next : α → Run β) (m : Machine) :
    (run >>= next).run.run m =
      (run.run.run m).bind fun (result, m') =>
        match result with
        | .ok value => (next value).run.run m'
        | .error d => some (.error d, m') := by
  change (run.run.run m).bind _ = _
  congr 1
  funext ⟨result, m'⟩
  cases result with
  | ok value => rfl
  | error d => rfl

theorem run_peek (m : Machine) :
    Machine.peek.run.run m = (m.tape.peek?).map fun t => (.ok t, m) := by
  change ((m.tape.peek?).map fun t => (t, m)).bind (fun (t, m) => some (Except.ok t, m)) = _
  cases m.tape.peek? with
  | none => rfl
  | some t => rfl

theorem run_turns_bind (next : Nat → Run α) (m : Machine) :
    (ExceptT.lift turns >>= next).run.run m = (next m.tape.tokens.length).run.run m := rfl

theorem run_take (kinds : List Kind) (m : Machine) :
    (take kinds).run.run m =
      (m.tape.take? kinds).map fun (t, tape) => (.ok t, { m with tape }) := by
  change ((m.tape.take? kinds).map fun (t, tape) => (t, { m with tape })).bind
    (fun (t, m) => some (Except.ok t, m)) = _
  cases m.tape.take? kinds with
  | none => rfl
  | some t => rfl

/-- On a tape that shows `s`, the run comes to what the reading of `s` comes to. -/
def Does (m : Machine) (s : TokenStream) (run : Run α) (reading : Reading α) : Prop :=
  reading.Onward s ∧ run.run.run m = some (reading.result, m.moved s reading.rest)

namespace Does

variable {m : Machine} {s : TokenStream} {run : Run α} {reading : Reading α}

theorem bind_stuck {cause : SyntaxFault} {rest : TokenStream} (h : Does m s run (.stuck cause rest))
    (next : α → Run β) : Does m s (run >>= next) (.stuck cause rest) := by
  obtain ⟨honward, hrun⟩ := h
  refine ⟨honward, ?_⟩
  rw [run_bind, hrun]
  rfl

theorem bind_done {value : α} {rest : TokenStream} {next : α → Run β} {readNext : Reading β}
    (h : Does m s run (.done value rest))
    (hnext : Does (m.moved s rest) rest (next value) readNext) :
    Does m s (run >>= next) readNext := by
  obtain ⟨⟨taken, hafter⟩, hrun⟩ := h
  obtain ⟨⟨more, hmore⟩, hlast⟩ := hnext
  replace hafter : s.After taken rest := hafter
  refine ⟨⟨taken ++ more, hafter.trans hmore⟩, ?_⟩
  rw [run_bind, hrun]
  change (next value).run.run (m.moved s rest) = _
  rw [hlast, moved_moved hafter hmore]

variable {kinds : List Kind} {next : Option Token → Run α}

theorem take_some (hm : m.tape.Shows s) {t : Token} {behind : TokenStream}
    (htake : s.take? kinds = some (t, behind))
    (h : Does (m.moved s behind) behind (next (some t)) reading) :
    Does m s (take kinds >>= next) reading := by
  obtain ⟨⟨more, hmore⟩, hrun⟩ := h
  have hafter := TokenStream.after_of_take? htake
  refine ⟨⟨t :: more, hafter.trans hmore⟩, ?_⟩
  rw [run_bind, run_take, hm.take?_eq, htake]
  change (next (some t)).run.run (m.moved s behind) = _
  rw [hrun, moved_moved hafter hmore]

theorem take_none (hm : m.tape.Shows s) (htake : s.take? kinds = none)
    (h : Does m s (next none) reading) : Does m s (take kinds >>= next) reading := by
  obtain ⟨honward, hrun⟩ := h
  refine ⟨honward, ?_⟩
  rw [run_bind, run_take, hm.take?_eq, htake]
  exact hrun

end Does

/-- From `depth` on, the run does what `read` does to the stream that is shown. -/
def Reads (depth : Nat) (run : Run α) (read : TokenStream → Reading α) : Prop :=
  ∀ (m : Machine) (s : TokenStream), m.tape.Shows s → m.depth = depth → Does m s run (read s)

namespace Reads

variable {depth : Nat} {run : Run α} {read : TokenStream → Reading α}

theorem congr {other : TokenStream → Reading α} (h : Reads depth run read)
    (heq : ∀ s, other s = read s) : Reads depth run other := by
  intro m s hm hdepth
  rw [heq s]
  exact h m s hm hdepth

theorem pure (value : α) : Reads depth (pure value) (Reading.done value) := by
  intro m s hm hdepth
  refine ⟨⟨[], .refl s⟩, ?_⟩
  change some (Except.ok value, m) = some (Except.ok value, m.moved s s)
  rw [moved_self hm]

theorem bind {next : α → Run β} {readNext : α → TokenStream → Reading β}
    (h : Reads depth run read) (hnext : ∀ value, Reads depth (next value) (readNext value)) :
    Reads depth (run >>= next) (fun s => (read s).bind readNext) := by
  intro m s hm hdepth
  have hdoes := h m s hm hdepth
  dsimp only
  cases hread : read s with
  | stuck cause rest =>
    rw [hread] at hdoes
    exact hdoes.bind_stuck next
  | done value rest =>
    rw [hread] at hdoes
    obtain ⟨taken, hafter⟩ := hdoes.1
    exact hdoes.bind_done (hnext value (m.moved s rest) rest (hm.moved hafter) hdepth)

theorem map (h : Reads depth run read) (f : α → β) :
    Reads depth (run >>= fun value => Pure.pure (f value)) (fun s => (read s).map f) := by
  have hvalue : ∀ value, Reads depth (Pure.pure (f value)) (Reading.done (f value)) :=
    fun value => .pure (f value)
  refine (h.bind hvalue).congr fun s => ?_
  cases read s with
  | done value rest => rfl
  | stuck cause rest => rfl

theorem peek {next : Token → Run α} {readNext : Token → TokenStream → Reading α}
    (h : ∀ t, Reads depth (next t) (readNext t)) :
    Reads depth (Machine.peek >>= next) (fun s => readNext s.peek s) := by
  intro m s hm hdepth
  unfold Does
  rw [run_bind, run_peek, hm.peek?_eq]
  exact h s.peek m s hm hdepth

theorem atEnd {next : Bool → Run α} {readNext : Bool → TokenStream → Reading α}
    (h : ∀ ends, Reads depth (next ends) (readNext ends)) :
    Reads depth (ExceptT.lift (look TokenTape.atEnd?) >>= next)
      (fun s => readNext s.atEnd s) := by
  intro m s hm hdepth
  have hlook : (ExceptT.lift (look TokenTape.atEnd?) : Run Bool).run.run m =
      some (.ok s.atEnd, m) := by
    change ((m.tape.atEnd?).map _).bind _ = _
    rw [hm.atEnd?_eq]
    rfl
  unfold Does
  rw [run_bind, hlook]
  exact h s.atEnd m s hm hdepth

/-- A failure lies at the token in view. -/
theorem refuse (cause : SyntaxFault) :
    Reads depth (Machine.refuse cause : Run α) (Reading.stuck cause) := by
  intro m s hm hdepth
  refine ⟨⟨[], .refl s⟩, ?_⟩
  rw [Machine.refuse, run_bind, run_peek, hm.peek?_eq]
  change some (Except.error _, m) = some (Except.error _, m.moved s s)
  rw [moved_self hm]

theorem take {kinds : List Kind} {next : Option Token → Run α}
    {found : Token → TokenStream → Reading α}
    (hfound : ∀ t, Reads depth (next (some t)) (found t)) (hnone : Reads depth (next none) read) :
    Reads depth (Machine.take kinds >>= next) (fun s =>
      match s.take? kinds with
      | some (t, behind) => found t behind
      | none => read s) := by
  intro m s hm hdepth
  dsimp only
  cases htake : s.take? kinds with
  | none => exact .take_none hm htake (hnone m s hm hdepth)
  | some taken =>
    obtain ⟨t, behind⟩ := taken
    have hbehind := hm.moved (TokenStream.after_of_take? htake)
    exact .take_some hm htake (hfound t (m.moved s behind) behind hbehind hdepth)

theorem expect (kind : Kind) (cause : SyntaxFault) :
    Reads depth (Machine.expect kind cause) (·.expect kind cause) := by
  intro m s hm hdepth
  refine ⟨(s.forward_expect kind cause).onward, ?_⟩
  change (m.tape.expect? kind cause).map _ = _
  rw [hm.expect?_eq]
  rfl

/-- One level deeper a rule is read as it is there, and the depth is counted back. -/
theorem nested {limit : Nat} (hdepth : depth < limit) (h : Reads (depth + 1) run read) :
    Reads depth (Machine.nested limit run) read := by
  intro m s hm hm'
  obtain ⟨honward, hrun⟩ := h { m with depth := m.depth + 1 } s hm (by rw [hm'])
  refine ⟨honward, ?_⟩
  have hdeeper : (Machine.nested limit run).run.run m =
      (run.run.run { m with depth := m.depth + 1 }).map fun (result, m') =>
        (result, { m' with depth := m'.depth - 1 }) := by
    unfold Machine.nested
    change (if limit ≤ m.depth then _ else _ : Steps _) m = _
    rw [if_neg (by omega)]
    change (run.run.run { m with depth := m.depth + 1 }).bind _ = _
    cases run.run.run { m with depth := m.depth + 1 } with
    | none => rfl
    | some ended => rfl
  rw [hdeeper, hrun]
  rfl

/-- At the limit nothing is read, whatever the rule. -/
theorem nested_of_le {limit : Nat} (hdepth : limit ≤ depth) (run : Run α) :
    Reads depth (Machine.nested limit run) (Reading.stuck (.nestedDeeperThan limit)) := by
  intro m s hm hm'
  have hrefused : (Machine.nested limit run).run.run m =
      (Machine.refuse (.nestedDeeperThan limit) : Run α).run.run m := by
    unfold Machine.nested
    change (if limit ≤ m.depth then _ else _ : Steps _) m = _
    rw [if_pos (by omega)]
    rfl
  unfold Does
  rw [hrefused]
  exact refuse _ m s hm hm'

end Reads

section Grammar

variable {depth : Nat} {operand inner deeper : Run Expr} {rule innerRule deeperRule : Rule Expr}

/-- A chain takes a turn for each operator, so there are turns enough. -/
theorem does_extend (h : Reads depth operand rule.read) (operators : List Symbol) (left : Expr)
    {turns : Nat} {m : Machine} {s : TokenStream} (hm : m.tape.Shows s) (hdepth : m.depth = depth)
    (hturns : s.pending.length < turns) :
    Does m s (extend operators operand turns left) (Grammar.extend operators rule left s) := by
  fun_induction Grammar.extend operators rule left s generalizing m turns with
  | case1 left s htake =>
    obtain ⟨turns, rfl⟩ := Nat.exists_eq_add_one_of_ne_zero (Nat.ne_zero_of_lt hturns)
    rw [extend]
    exact .take_none hm htake (Reads.pure left m s hm hdepth)
  | case2 left s operator behind htake cause rest hread =>
    obtain ⟨turns, rfl⟩ := Nat.exists_eq_add_one_of_ne_zero (Nat.ne_zero_of_lt hturns)
    have hbehind := hm.moved (TokenStream.after_of_take? htake)
    have hoperand := h (m.moved s behind) behind hbehind hdepth
    rw [hread] at hoperand
    rw [extend]
    exact .take_some hm htake (hoperand.bind_stuck _)
  | case3 left s operator behind htake right rest hread ih =>
    obtain ⟨turns, rfl⟩ := Nat.exists_eq_add_one_of_ne_zero (Nat.ne_zero_of_lt hturns)
    have htaken := TokenStream.after_of_take? htake
    have hbehind := hm.moved htaken
    have hoperand := h (m.moved s behind) behind hbehind hdepth
    rw [hread] at hoperand
    obtain ⟨taken, hafter⟩ := hoperand.1
    replace hafter : behind.After taken rest := hafter
    have hfewer : rest.pending.length < turns := by
      have htotal := (htaken.trans hafter).length_pending
      simp only [List.length_append, List.length_singleton] at htotal
      omega
    rw [extend]
    exact .take_some hm htake (hoperand.bind_done (ih (hbehind.moved hafter) hdepth hfewer))

theorem reads_chain (h : Reads depth operand rule.read) (operators : List Symbol) :
    Reads depth (chain operand operators) (Grammar.chain rule operators).read := by
  refine h.bind fun left m s hm hdepth => ?_
  unfold Does
  rw [run_turns_bind]
  exact does_extend h operators left hm hdepth hm.length_pending_lt

theorem reads_binary (h : Reads depth operand rule.read) :
    Reads depth (binary operand) (Grammar.binary rule).read := by
  unfold binary Grammar.binary
  induction binaryTiers generalizing operand rule with
  | nil => exact h
  | cons operators tiers ih => exact ih (reads_chain h operators)

/-- A primary expression with the kinds of tokens tried one after the other. -/
def primaryInTurn (innerRule : Rule Expr) (s : TokenStream) : Reading Expr :=
  match s.take? [.word .falseWord] with
  | some (_, behind) => .done (.literal (.boolean false)) behind
  | none =>
    match s.take? [.word .trueWord] with
    | some (_, behind) => .done (.literal (.boolean true)) behind
    | none =>
      match s.take? [.word .nilWord] with
      | some (_, behind) => .done (.literal .nil) behind
      | none =>
        match s.take? [.number, .string] with
        | some (t, behind) =>
          .done (.literal ((t.literal.map Value.ofLiteral).getD .nil)) behind
        | none =>
          match s.take? [.symbol .leftParen] with
          | some (_, behind) =>
            (innerRule.read behind).bind fun e rest =>
              (rest.expect (.symbol .rightParen) .unclosedGrouping).map fun _ => .grouping e
          | none => .stuck (.unexpectedToken s.peek.lexeme) s

theorem read_primary (innerRule : Rule Expr) (s : TokenStream) :
    (Grammar.primary innerRule).read s = primaryInTurn innerRule s := by
  have hkinds : s.take? literalKinds =
      (s.take? [.word .falseWord]).or ((s.take? [.word .trueWord]).or
        ((s.take? [.word .nilWord]).or (s.take? [.number, .string]))) := by
    simp only [← TokenStream.take?_append]
    rfl
  have hkind {kinds : List Kind} {t : Token} {behind : TokenStream}
      (htake : s.take? kinds = some (t, behind)) : t.kind ∈ kinds :=
    (TokenStream.take?_eq_some htake).2
  unfold Grammar.primary primaryInTurn
  dsimp only
  rw [hkinds]
  cases hfalse : s.take? [.word .falseWord] with
  | some taken => simp [Token.value, List.mem_singleton.1 (hkind hfalse)]
  | none =>
    cases htrue : s.take? [.word .trueWord] with
    | some taken => simp [Token.value, List.mem_singleton.1 (hkind htrue)]
    | none =>
      cases hnil : s.take? [.word .nilWord] with
      | some taken => simp [Token.value, List.mem_singleton.1 (hkind hnil)]
      | none =>
        cases hvalue : s.take? [.number, .string] with
        | none => rfl
        | some taken =>
          have hmem := hkind hvalue
          simp only [List.mem_cons, List.not_mem_nil, or_false] at hmem
          rcases hmem with hnumber | hstring
          · simp [Token.value, hnumber]
          · simp [Token.value, hstring]

theorem reads_primary (h : Reads depth inner innerRule.read) :
    Reads depth (primary inner) (Grammar.primary innerRule).read := by
  have hgrouping : Reads depth
      (do
        let e ← inner
        let _ ← expect (.symbol .rightParen) .unclosedGrouping
        return Expr.grouping e)
      (fun s => (innerRule.read s).bind fun e rest =>
        (rest.expect (.symbol .rightParen) .unclosedGrouping).map fun _ => .grouping e) :=
    h.bind fun e => (Reads.expect _ _).map fun _ => Expr.grouping e
  have hturn : Reads depth (primary inner) (primaryInTurn innerRule) := by
    refine .take (fun _ => .pure _) (.take (fun _ => .pure _) (.take (fun _ => .pure _) ?_))
    refine .take (fun _ => .pure _) (.take (fun _ => hgrouping) ?_)
    exact .peek fun t => .refuse (.unexpectedToken t.lexeme)
  exact hturn.congr (read_primary innerRule)

theorem reads_operand (hdeeper : Reads depth deeper deeperRule.read)
    (hinner : Reads depth inner innerRule.read) :
    Reads depth
      (do
        match ← take (unaryOperators.map .symbol) with
        | some operator => return Expr.unary operator (← deeper)
        | none => primary inner)
      (Grammar.operand deeperRule innerRule).read :=
  .take (fun operator => hdeeper.map (Expr.unary operator)) (reads_primary hinner)

/-- Outside the grouping and the unary operators there is room for what the depth leaves of the
limit, and the rules can be nested as long as there is some. -/
theorem reads_unary {limit room : Nat} (hroom : limit - depth < room) :
    Reads depth (unary limit room) (Grammar.unary limit (limit - depth)).read := by
  induction room generalizing depth with
  | zero => omega
  | succ room ih =>
    rw [unary]
    by_cases hdepth : limit ≤ depth
    · rw [Nat.sub_eq_zero_of_le hdepth, Grammar.unary]
      exact reads_operand (.nested_of_le hdepth _) (.nested_of_le hdepth _)
    · have hlevel : limit - depth = limit - (depth + 1) + 1 := by omega
      have hdeeper : Reads (depth + 1) (unary limit room)
          (Grammar.unary limit (limit - (depth + 1))).read := ih (by omega)
      rw [hlevel, Grammar.unary]
      exact reads_operand (hdeeper.nested (by omega)) ((reads_binary hdeeper).nested (by omega))

theorem reads_expression (limit : Nat) :
    Reads 0 (expression limit) (Grammar.expression limit).read := by
  have hroom : limit - 0 < limit + 1 := Nat.lt_succ_self limit
  exact reads_binary (reads_unary hroom)

theorem reads_printStatement {value : Run Expr} (h : Reads depth value rule.read) :
    Reads depth (printStatement value) (Grammar.printStatement rule).read :=
  h.bind fun e => (Reads.expect _ _).map fun _ => Statement.print e

theorem reads_bareStatement {value : Run Expr} (h : Reads depth value rule.read)
    (terminator : Terminator) :
    Reads depth (bareStatement terminator value)
      (Grammar.bareStatement terminator rule).read := by
  refine h.bind fun e => ?_
  cases terminator with
  | required => exact (Reads.expect _ _).map fun _ => Statement.expression e
  | optional => exact .take (fun _ => .pure (Statement.expression e)) (.pure _)

theorem reads_statement (settings : Settings) :
    Reads 0 (statement settings) settings.statement.read :=
  .take (fun _ => reads_printStatement (reads_expression _))
    (reads_bareStatement (reads_expression _) _)

theorem reads_wholeExpression (limit : Nat) :
    Reads 0 (wholeExpression limit) (Grammar.wholeExpression limit) := by
  have hend : ∀ (e : Expr) (ends : Bool),
      Reads 0 (if ends then Pure.pure e else refuse .trailingToken)
        (fun s => if ends then .done e s else .stuck .trailingToken s) := by
    intro e ends
    cases ends with
    | true => exact .pure e
    | false => exact .refuse .trailingToken
  exact (reads_expression limit).bind fun e => .atEnd (hend e)

end Grammar

section Programs

variable {m : Machine} {s : TokenStream}

theorem run_look_bind (question : TokenTape → Option α) (next : α → Steps β) (m : Machine) :
    (look question >>= next) m = (question m.tape).bind fun answer => next answer m := by
  change ((question m.tape).map _).bind _ = _
  cases question m.tape with
  | none => rfl
  | some answer => rfl

theorem run_move_bind (question : TokenTape → Option (α × TokenTape)) (next : α → Steps β)
    (m : Machine) :
    (move question >>= next) m =
      (question m.tape).bind fun (answer, tape) => next answer { m with tape } := by
  change ((question m.tape).map _).bind _ = _
  cases question m.tape with
  | none => rfl
  | some answer => rfl

/-- One turn of the search for a boundary. -/
theorem run_toBoundary_succ (hm : m.tape.Shows s) (turns : Nat) :
    toBoundary (turns + 1) m =
      if s.atBoundary then some ((), m) else toBoundary turns (m.moved s s.advance) := by
  rw [toBoundary, run_look_bind, hm.atEnd?_eq, Option.bind_some, TokenStream.atBoundary_eq]
  cases s.atEnd with
  | true => rfl
  | false =>
    change (look TokenTape.previous? >>= _) m = _
    rw [run_look_bind, hm.previous?_eq, Option.bind_some]
    cases s.previous?.any (·.kind = .symbol .semicolon) with
    | true => rfl
    | false =>
      change (look TokenTape.peek? >>= _) m = _
      rw [run_look_bind, hm.peek?_eq, Option.bind_some]
      cases (statementWords.map Kind.word).contains s.peek.kind with
      | true => rfl
      | false =>
        change (move TokenTape.advance? >>= _) m = _
        rw [run_move_bind, hm.advance?_eq]
        rfl

/-- Every turn passes over a token, so there are turns enough. -/
theorem run_toBoundary (hm : m.tape.Shows s) {turns : Nat} (hturns : s.pending.length < turns) :
    toBoundary turns m = some ((), m.moved s s.toBoundary) := by
  fun_induction TokenStream.toBoundary s generalizing m turns with
  | case1 s hboundary =>
    obtain ⟨turns, rfl⟩ := Nat.exists_eq_add_one_of_ne_zero (Nat.ne_zero_of_lt hturns)
    rw [run_toBoundary_succ hm, if_pos hboundary, moved_self hm]
  | case2 s hboundary ih =>
    obtain ⟨turns, rfl⟩ := Nat.exists_eq_add_one_of_ne_zero (Nat.ne_zero_of_lt hturns)
    obtain ⟨taken, hafter⟩ := s.exists_after_advance
    obtain ⟨more, hmore⟩ := s.advance.exists_after_toBoundary
    have hend : s.atEnd = false := by
      simp only [TokenStream.atBoundary, Bool.or_eq_true, not_or, Bool.not_eq_true] at hboundary
      exact hboundary.1.1
    have hfewer := TokenStream.length_advance_lt hend
    rw [run_toBoundary_succ hm, if_neg hboundary, ih (hm.moved hafter) (by omega),
      moved_moved hafter hmore]

/-- Where the machine goes on is where the stream does, and the token there is written down. -/
theorem run_recover (hm : m.tape.Shows s) (begun : TokenStream) :
    recover begun.index m =
      some ((), (m.moved s (.recover begun s)).noted
        (.resumed (TokenStream.recover begun s).peek)) := by
  have hfinish {m : Machine} {s : TokenStream} (hm : m.tape.Shows s) :
      (do toBoundary (← turns); note (.resumed (← look TokenTape.peek?))) m =
        some ((), (m.moved s s.toBoundary).noted (.resumed s.toBoundary.peek)) := by
    obtain ⟨taken, hafter⟩ := s.exists_after_toBoundary
    change (toBoundary m.tape.tokens.length m).bind _ = _
    rw [run_toBoundary hm hm.length_pending_lt, Option.bind_some]
    change (look TokenTape.peek? >>= _) (m.moved s s.toBoundary) = _
    rw [run_look_bind]
    change ((m.tape.moved s s.toBoundary).peek?).bind _ = _
    rw [(hm.moved hafter).peek?_eq]
    rfl
  unfold recover TokenStream.recover
  change (if m.tape.head = begun.index then _ else _ : Steps Unit) m = _
  rw [hm.head_eq]
  by_cases hindex : s.index = begun.index
  · obtain ⟨taken, hafter⟩ := s.exists_after_advance
    obtain ⟨more, hmore⟩ := s.advance.exists_after_toBoundary
    rw [if_pos hindex, if_pos hindex, ← moved_moved hafter hmore]
    rw [run_move_bind, hm.advance?_eq, Option.bind_some]
    exact hfinish (hm.moved hafter)
  · rw [if_neg hindex, if_neg hindex]
    exact hfinish hm

/-- The machine when a statement has been attempted where it stands. -/
def after (m : Machine) (attempt : Attempt) : Machine :=
  { m with tape :=
    { m.tape with head := attempt.resumed.index, log := m.tape.log ++ attempt.events } }

theorem Shows.after (hm : m.tape.Shows s) {rule : Rule Statement} :
    (m.after (.make rule s)).tape.Shows (Attempt.make rule s).resumed := by
  obtain ⟨w, hw⟩ := (rule.forward s).onward
  obtain ⟨v, hv⟩ := (Attempt.make rule s).exists_after_resumed
  have h := hm.moved (hw.trans hv)
  exact ⟨h.proper, rfl, h.tokens_eq⟩

/-- A program in the course of being read: what has been found so far, and the machine. -/
structure Course where
  found : List Statement
  faults : Report SyntaxFault
  machine : Machine

namespace Course

/-- One turn of the loop that reads a program. Behind a statement that fails the machine goes on to
where the next one may begin. -/
def turn? (settings : Settings) (course : Course) : Option Course := do
  let (result, m) ← (statement settings).run.run course.machine
  match result with
  | .ok statement =>
    return ⟨course.found ++ [statement], course.faults, m.noted (.parsed statement)⟩
  | .error d =>
    let (_, last) ← recover course.machine.tape.head (m.noted (.failed d))
    return ⟨course.found, course.faults.add d, last⟩

/-- What the program comes to if it ends here. -/
def result (course : Course) : Except (Report SyntaxFault) (List Statement) :=
  if course.faults.isEmpty then .ok course.found else .error course.faults

/-- The loop takes its turns until the end mark is in view. -/
theorem program_succ (settings : Settings) (turns : Nat) (course : Course) :
    program settings (turns + 1) course.found course.faults course.machine =
      course.machine.tape.atEnd?.bind fun ends =>
        if ends then some (course.result, course.machine)
        else (course.turn? settings).bind fun next =>
          program settings turns next.found next.faults next.machine := by
  rw [program, run_look_bind]
  congr 1
  funext ends
  cases ends with
  | true => rfl
  | false =>
    change ((statement settings).run.run course.machine).bind _ =
      (((statement settings).run.run course.machine).bind _).bind _
    rw [Option.bind_assoc]
    congr 1
    funext ⟨result, m⟩
    cases result with
    | ok statement => rfl
    | error d =>
      change (recover course.machine.tape.head (m.noted (.failed d))).bind _ =
        ((recover course.machine.tape.head (m.noted (.failed d))).bind _).bind _
      rw [Option.bind_assoc]
      rfl

/-- A turn is an attempt: a statement is found, or a fault, and the machine goes on behind. -/
theorem turn?_eq (settings : Settings) (found : List Statement) (faults : Report SyntaxFault)
    (hm : m.tape.Shows s) (hdepth : m.depth = 0) :
    turn? settings ⟨found, faults, m⟩ =
      some ⟨found ++ (settings.statement.read s).value?.toList,
        faults ++ (settings.statement.read s).diagnostic?.toList,
        m.after (.make settings.statement s)⟩ := by
  obtain ⟨⟨taken, hafter⟩, hrun⟩ := reads_statement settings m s hm hdepth
  change ((statement settings).run.run m).bind _ = _
  rw [hrun, Option.bind_some]
  cases hread : settings.statement.read s with
  | done statement rest =>
    have hstate : (m.moved s rest).noted (.parsed statement) =
        m.after (.make settings.statement s) := by
      unfold after Attempt.resumed Attempt.events Attempt.make
      rw [hread, ← List.append_assoc]
      rfl
    rw [Reading.value?, Reading.diagnostic?, Option.toList_some, Option.toList_none,
      List.append_nil, ← hstate]
    rfl
  | stuck cause rest =>
    replace hafter : s.After taken rest := by rwa [hread] at hafter
    have hstate : (((m.moved s rest).noted (.failed (rest.peek.diagnostic cause))).moved rest
          (.recover s rest)).noted (.resumed (TokenStream.recover s rest).peek) =
        m.after (.make settings.statement s) := by
      unfold after Attempt.resumed Attempt.events Attempt.make
      rw [hread]
      simp only [← List.append_assoc]
      rfl
    rw [Reading.value?, Reading.diagnostic?, Option.toList_some, Option.toList_none,
      List.append_nil, ← hstate]
    change (recover m.tape.head ((m.moved s rest).noted (.failed _))).bind _ = _
    rw [hm.head_eq, run_recover ((hm.moved hafter).note _) s]
    rfl

end Course

theorem run_program_succ (settings : Settings) (turns : Nat) (found : List Statement)
    (faults : Report SyntaxFault) (hm : m.tape.Shows s) (hdepth : m.depth = 0)
    (hend : s.atEnd = false) :
    program settings (turns + 1) found faults m =
      program settings turns (found ++ (settings.statement.read s).value?.toList)
        (faults ++ (settings.statement.read s).diagnostic?.toList)
        (m.after (.make settings.statement s)) := by
  have hturn := Course.turn?_eq settings found faults hm hdepth
  rw [Course.program_succ settings turns ⟨found, faults, m⟩, hm.atEnd?_eq, hend, hturn]
  rfl

/-- What the attempts come to behind statements and faults already found. -/
def outcomeBehind (found : List Statement) (faults : Report SyntaxFault)
    (history : List Attempt) : Except (Report SyntaxFault) (List Statement) :=
  match faults ++ history.filterMap (·.reading.diagnostic?) with
  | [] => .ok (found ++ history.filterMap (·.reading.value?))
  | reported => .error reported

/-- The machine at the end of the stream that its tape shows, with the events of a run. -/
def finished (m : Machine) (s : TokenStream) (events : List Event) : Machine :=
  { m with tape :=
    { m.tape with head := s.index + s.pending.length, log := m.tape.log ++ events } }

theorem outcomeBehind_cons (found : List Statement) (faults : Report SyntaxFault)
    (attempt : Attempt) (later : List Attempt) :
    outcomeBehind found faults (attempt :: later) =
      outcomeBehind (found ++ attempt.reading.value?.toList)
        (faults ++ attempt.reading.diagnostic?.toList) later := by
  unfold outcomeBehind
  rw [List.append_assoc, List.append_assoc]
  obtain ⟨begun, reading⟩ := attempt
  cases reading with
  | done value rest => rfl
  | stuck cause rest => rfl

theorem finished_after (m : Machine) (rule : Rule Statement) (s : TokenStream)
    (events : List Event) :
    (m.after (.make rule s)).finished (Attempt.make rule s).resumed events =
      m.finished s ((Attempt.make rule s).events ++ events) := by
  obtain ⟨w, hw⟩ := (rule.forward s).onward
  obtain ⟨v, hv⟩ := (Attempt.make rule s).exists_after_resumed
  have hafter : s.After (w ++ v) (Attempt.make rule s).resumed := hw.trans hv
  have hend : (Attempt.make rule s).resumed.index + (Attempt.make rule s).resumed.pending.length =
      s.index + s.pending.length := by
    rw [hafter.index_eq, Nat.add_assoc, hafter.length_pending]
  unfold finished after
  rw [hend, ← List.append_assoc]

/-- A whole program: its result and its trace are those of the history, the depth is what it was,
and all tokens in front of the end mark have been passed. -/
theorem run_program (settings : Settings) (found : List Statement) (faults : Report SyntaxFault)
    (hm : m.tape.Shows s) (hdepth : m.depth = 0) {turns : Nat}
    (hturns : s.pending.length < turns) :
    program settings turns found faults m =
      some (outcomeBehind found faults (attempts settings.statement s),
        m.finished s (programEvents settings s)) := by
  unfold programEvents
  fun_induction attempts settings.statement s generalizing m found faults turns with
  | case1 s hend =>
    obtain ⟨turns, rfl⟩ := Nat.exists_eq_add_one_of_ne_zero (Nat.ne_zero_of_lt hturns)
    have hpending : s.pending = [] := List.isEmpty_iff.1 hend
    have hstays : m.finished s [] = m := by
      unfold finished
      rw [hpending, List.append_nil, List.length_nil, Nat.add_zero, ← hm.head_eq]
    rw [List.flatMap_nil, hstays, program, run_look_bind, hm.atEnd?_eq, hend]
    unfold outcomeBehind
    rw [List.filterMap_nil, List.filterMap_nil, List.append_nil, List.append_nil]
    cases faults with
    | nil => rfl
    | cons d later => rfl
  | case2 s hend attempt =>
    rename_i ih
    obtain ⟨turns, rfl⟩ := Nat.exists_eq_add_one_of_ne_zero (Nat.ne_zero_of_lt hturns)
    have hpending : s.atEnd = false := by simpa using hend
    have hfewer : attempt.resumed.pending.length < turns :=
      Nat.lt_of_lt_of_le (Attempt.length_resumed_lt settings.statement s hpending)
        (Nat.le_of_lt_succ hturns)
    rw [run_program_succ settings turns found faults hm hdepth hpending,
      ih _ _ (Shows.after hm) hdepth hfewer, outcomeBehind_cons, List.flatMap_cons, finished_after]
    rfl

theorem readProgram_of_shows {tape : TokenTape} (h : tape.Shows s) (settings : Settings) :
    readProgram settings tape =
      some (LoxSyntax.readProgram settings s,
        finished ⟨tape, 0⟩ s (programEvents settings s)) :=
  run_program settings [] [] h rfl h.length_pending_lt

theorem readExpression_of_shows {tape : TokenTape} (h : tape.Shows s) (settings : Settings) :
    readExpression settings tape =
      some (LoxSyntax.readExpression settings s,
        moved ⟨tape, 0⟩ s (Grammar.wholeExpression settings.nestingLimit s).rest) :=
  (reads_wholeExpression settings.nestingLimit ⟨tape, 0⟩ s h rfl).2

end Programs

end Machine

end LoxSyntax
