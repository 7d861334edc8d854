import LoxSyntax.Proofs.Canonical
import LoxSyntax.Proofs.Streams

/-!
The rules for expressions and their grammar. A reading that is done has read a canonical tree up
to a token that does not go on with it. A reading that is stuck has broken off, and how it did so
is a derivation of its own. Both are equivalences, so a reading is settled by the tokens that it
takes and the one in view behind them.
-/

namespace LoxSyntax

namespace Grammar

open TokenStream

/-- The operators of tier `n + 1`. -/
def operators (n : Nat) : List Symbol := binaryTiers.getD n []

/-- Operands joined by binary operators of tiers up to `n`. -/
def level (operand : Rule Expr) : Nat → Rule Expr
  | 0 => operand
  | n + 1 => chain (level operand n) (operators n)

theorem binary_eq_level (operand : Rule Expr) : binary operand = level operand 4 := rfl

theorem mem_operators_iff {n : Nat} {k : Kind} :
    k ∈ (operators n).map .symbol ↔ k.tier? = some (n + 1) := by
  cases k with
  | symbol s =>
    match n with
    | 0 => cases s <;> simp [operators, binaryTiers, Kind.tier?, Symbol.tier?]
    | 1 => cases s <;> simp [operators, binaryTiers, Kind.tier?, Symbol.tier?]
    | 2 => cases s <;> simp [operators, binaryTiers, Kind.tier?, Symbol.tier?]
    | 3 => cases s <;> simp [operators, binaryTiers, Kind.tier?, Symbol.tier?]
    | n + 4 => cases s <;> simp [operators, binaryTiers, Kind.tier?, Symbol.tier?]
  | word w => simp [Kind.tier?]
  | identifier => simp [Kind.tier?]
  | string => simp [Kind.tier?]
  | number => simp [Kind.tier?]
  | endMark => simp [Kind.tier?]

theorem mem_unaryOperators_iff {k : Kind} :
    k ∈ unaryOperators.map .symbol ↔ k = .symbol .bang ∨ k = .symbol .minus := by
  simp [unaryOperators]

/-- The kinds of tokens that an expression can start with. -/
def starters : List Kind :=
  unaryOperators.map .symbol ++ literalKinds ++ [.symbol .leftParen]

/-- The tokens `w` begin an expression of tier up to `n`, nested up to `room` deep, that breaks off
in front of `t`. At the limit it does so whatever `t` is. -/
inductive Breaks (limit : Nat) : Nat → Nat → List Token → Token → SyntaxFault → Prop
  | start {room : Nat} {t : Token} (h : t.kind ∉ starters) :
      Breaks limit 0 room [] t (.unexpectedToken t.lexeme)
  | deep {opening t : Token}
      (h : opening.kind ∈ unaryOperators.map .symbol ++ [.symbol .leftParen]) :
      Breaks limit 0 0 [opening] t (.nestedDeeperThan limit)
  | operand {room : Nat} {operator t : Token} {w : List Token} {cause : SyntaxFault}
      (hoperator : operator.kind = .symbol .bang ∨ operator.kind = .symbol .minus)
      (h : Breaks limit 0 room w t cause) : Breaks limit 0 (room + 1) (operator :: w) t cause
  | inner {room : Nat} {opening t : Token} {w : List Token} {cause : SyntaxFault}
      (hopening : opening.kind = .symbol .leftParen) (h : Breaks limit 4 room w t cause) :
      Breaks limit 0 (room + 1) (opening :: w) t cause
  | unclosed {room : Nat} {opening t : Token} {e : Expr} {w : List Token}
      (hopening : opening.kind = .symbol .leftParen) (h : e.Fits 4 room w) (hends : t.Ends 4)
      (hclosing : t.kind ≠ .symbol .rightParen) :
      Breaks limit 0 (room + 1) (opening :: w) t .unclosedGrouping
  | left {n room : Nat} {w : List Token} {t : Token} {cause : SyntaxFault}
      (h : Breaks limit n room w t cause) : Breaks limit (n + 1) room w t cause
  | right {n room : Nat} {left : Expr} {operator t : Token} {u v : List Token}
      {cause : SyntaxFault} (hleft : left.Fits (n + 1) room u)
      (hoperator : operator.kind.tier? = some (n + 1)) (h : Breaks limit n room v t cause) :
      Breaks limit (n + 1) room (u ++ operator :: v) t cause

/-- What a reading of `s` as an expression comes to. -/
def Explained (limit n room : Nat) (s : TokenStream) : Reading Expr → Prop
  | .done e rest => ∃ w, s.After w rest ∧ e.Fits n room w ∧ rest.peek.Ends n
  | .stuck cause rest => ∃ w, s.After w rest ∧ Breaks limit n room w rest.peek cause

section Soundness

variable {limit n room : Nat}

/-- The chain read so far stands to the left of whatever comes next. -/
theorem explained_extend {operand : Rule Expr}
    (hoperand : ∀ s : TokenStream, s.Proper → Explained limit n room s (operand.read s))
    {left : Expr} {u : List Token} {begun s : TokenStream} (hbegun : begun.Proper)
    (hleft : left.Fits (n + 1) room u) (hu : begun.After u s) (hends : s.peek.Ends n) :
    Explained limit (n + 1) room begun (extend (operators n) operand left s) := by
  fun_induction extend (operators n) operand left s generalizing u with
  | case1 left s htake =>
    have hpeek := peek_of_take?_eq_none (hu.proper hbegun) (by simp) htake
    refine ⟨u, hu, hleft, ?_⟩
    intro m hm
    have hlt := hends m hm
    have hne : m ≠ n + 1 := fun h => hpeek (mem_operators_iff.2 (h ▸ hm))
    omega
  | case2 left s operator behind htake cause rest hread =>
    obtain ⟨hbehind, hkind⟩ := take?_eq_some htake
    have hexplained := hoperand behind (hbehind.proper (hu.proper hbegun))
    rw [hread] at hexplained
    obtain ⟨v, hv, hbreaks⟩ := hexplained
    exact ⟨_, (hu.trans hbehind).trans hv, by
      simpa using Breaks.right hleft (mem_operators_iff.1 hkind) hbreaks⟩
  | case3 left s operator behind htake right rest hread ih =>
    obtain ⟨hbehind, hkind⟩ := take?_eq_some htake
    have hexplained := hoperand behind (hbehind.proper (hu.proper hbegun))
    rw [hread] at hexplained
    obtain ⟨v, hv, hright, hrest⟩ := hexplained
    refine ih (.binary hleft (mem_operators_iff.1 hkind) hright) ?_ hrest
    simpa using (hu.trans hbehind).trans hv

theorem explained_chain {operand : Rule Expr}
    (hoperand : ∀ s : TokenStream, s.Proper → Explained limit n room s (operand.read s))
    {s : TokenStream} (hs : s.Proper) :
    Explained limit (n + 1) room s ((chain operand (operators n)).read s) := by
  have hfirst := hoperand s hs
  unfold chain
  dsimp only
  cases hread : operand.read s with
  | done left rest =>
    rw [hread] at hfirst
    obtain ⟨u, hu, hleft, hends⟩ := hfirst
    exact explained_extend hoperand hs (hleft.mono (Nat.le_succ n)) hu hends
  | stuck cause rest =>
    rw [hread] at hfirst
    obtain ⟨w, hw, hbreaks⟩ := hfirst
    exact ⟨w, hw, .left hbreaks⟩

theorem explained_level {operand : Rule Expr}
    (hoperand : ∀ s : TokenStream, s.Proper → Explained limit 0 room s (operand.read s))
    (n : Nat) {s : TokenStream} (hs : s.Proper) :
    Explained limit n room s ((level operand n).read s) := by
  induction n generalizing s with
  | zero => exact hoperand s hs
  | succ n ih => exact explained_chain (fun _ => ih) hs

/-- What an expression comes to that has one level of `room` to itself. Without it there is only
the limit to report. -/
def Nested (limit n : Nat) (s : TokenStream) (reading : Reading Expr) : Nat → Prop
  | 0 => reading = .stuck (.nestedDeeperThan limit) s
  | room + 1 => Explained limit n room s reading

theorem explained_unary {s behind : TokenStream} {operator : Token} {reading : Reading Expr}
    (hbehind : s.After [operator] behind)
    (hoperator : operator.kind = .symbol .bang ∨ operator.kind = .symbol .minus)
    (hnested : Nested limit 0 behind reading room) :
    Explained limit 0 room s (reading.map (.unary operator)) := by
  cases room with
  | zero =>
    rw [hnested]
    refine ⟨_, hbehind, .deep ?_⟩
    exact List.mem_append_left _ (mem_unaryOperators_iff.2 hoperator)
  | succ room =>
    cases reading with
    | done e rest =>
      obtain ⟨w, hw, he, hends⟩ := hnested
      exact ⟨_, hbehind.trans hw, .unary hoperator he, hends⟩
    | stuck cause rest =>
      obtain ⟨w, hw, hbreaks⟩ := hnested
      exact ⟨_, hbehind.trans hw, .operand hoperator hbreaks⟩

theorem explained_grouping {s behind : TokenStream} (hs : s.Proper) {opening : Token}
    {reading : Reading Expr} (hbehind : s.After [opening] behind)
    (hopening : opening.kind = .symbol .leftParen)
    (hnested : Nested limit 4 behind reading room) :
    Explained limit 0 room s (reading.bind fun e rest =>
      (rest.expect (.symbol .rightParen) .unclosedGrouping).map fun _ => .grouping e) := by
  cases room with
  | zero =>
    rw [hnested]
    exact ⟨_, hbehind, .deep (by simp [hopening])⟩
  | succ room =>
    cases reading with
    | stuck cause rest =>
      obtain ⟨w, hw, hbreaks⟩ := hnested
      exact ⟨_, hbehind.trans hw, .inner hopening hbreaks⟩
    | done e rest =>
      obtain ⟨w, hw, he, hends⟩ := hnested
      have hproper := hw.proper (hbehind.proper hs)
      unfold Reading.bind
      dsimp only
      cases hclose : rest.expect (.symbol .rightParen) .unclosedGrouping with
      | done closing final =>
        obtain ⟨hfinal, hclosing⟩ := expect_eq_done hclose
        refine ⟨opening :: w ++ [closing], ?_, .grouping hopening he hclosing, ?_⟩
        · simpa using (hbehind.trans hw).trans hfinal
        · intro m hm
          have hbounds := Kind.tier?_bounds hm
          omega
      | stuck cause final =>
        obtain ⟨rfl, rfl, hne⟩ := expect_eq_stuck hproper (by simp) hclose
        exact ⟨opening :: w, hbehind.trans hw, .unclosed hopening he hends hne⟩

theorem explained_operand {deeper inner : Rule Expr}
    (hdeeper : ∀ s : TokenStream, s.Proper → Nested limit 0 s (deeper.read s) room)
    (hinner : ∀ s : TokenStream, s.Proper → Nested limit 4 s (inner.read s) room)
    {s : TokenStream} (hs : s.Proper) :
    Explained limit 0 room s ((operand deeper inner).read s) := by
  unfold operand
  dsimp only
  split
  · rename_i operator behind htake
    obtain ⟨hbehind, hkind⟩ := take?_eq_some htake
    exact explained_unary hbehind (mem_unaryOperators_iff.1 hkind)
      (hdeeper behind (hbehind.proper hs))
  rename_i hunary
  unfold primary
  dsimp only
  split
  · rename_i t behind htake
    obtain ⟨hbehind, hkind⟩ := take?_eq_some htake
    refine ⟨_, hbehind, .literal (Token.denotes_iff.2 ⟨hkind, rfl⟩), ?_⟩
    intro m hm
    have hbounds := Kind.tier?_bounds hm
    omega
  rename_i hliteral
  split
  · rename_i opening behind htake
    obtain ⟨hbehind, hkind⟩ := take?_eq_some htake
    exact explained_grouping hs hbehind (List.mem_singleton.1 hkind)
      (hinner behind (hbehind.proper hs))
  · rename_i hparen
    refine ⟨[], .refl s, .start ?_⟩
    have hnotUnary := peek_of_take?_eq_none hs (by simp) hunary
    have hnotLiteral := peek_of_take?_eq_none hs (by simp [literalKinds]) hliteral
    have hnotParen := peek_of_take?_eq_none hs (by simp) hparen
    simp only [starters, List.mem_append, not_or]
    exact ⟨⟨hnotUnary, hnotLiteral⟩, hnotParen⟩

theorem explained (limit room n : Nat) {s : TokenStream} (hs : s.Proper) :
    Explained limit n room s ((level (unary limit room) n).read s) := by
  induction room generalizing n s with
  | zero =>
    apply explained_level _ n hs
    intro s hs
    have hnever : ∀ n s, Nested limit n s ((Rule.never (.nestedDeeperThan limit)).read s) 0 :=
      fun _ _ => rfl
    exact explained_operand (fun s _ => hnever 0 s) (fun s _ => hnever 4 s) hs
  | succ room ih =>
    apply explained_level _ n hs
    intro s hs
    exact explained_operand (fun _ => ih 0) (fun _ => ih 4) hs

end Soundness

section Completeness

variable {limit n m room : Nat} {s behind rest : TokenStream} {e left right : Expr}
  {operator : Token}

theorem extend_of_ends {operand : Rule Expr} (hends : s.peek.Ends (n + 1)) :
    extend (operators n) operand left s = .done left s := by
  have hkind : s.peek.kind ∉ (operators n).map .symbol := fun hmem =>
    Nat.lt_irrefl (n + 1) (hends (n + 1) (mem_operators_iff.1 hmem))
  have htake := take?_eq_none hkind
  rw [extend]
  split
  · rfl
  · simp_all

theorem extend_of_done {operand : Rule Expr} (hbehind : s.After [operator] behind)
    (hoperator : operator.kind.tier? = some (n + 1))
    (hright : operand.read behind = .done right rest) :
    extend (operators n) operand left s =
      extend (operators n) operand (.binary left operator right) rest := by
  obtain ⟨q, htake, hq, -⟩ := take?_of_after hbehind (mem_operators_iff.2 hoperator)
  have hq : q = behind := hq.rest_eq hbehind
  subst hq
  rw [extend]
  split
  · simp_all
  · split <;> simp_all

theorem extend_of_stuck {operand : Rule Expr} {cause : SyntaxFault}
    (hbehind : s.After [operator] behind) (hoperator : operator.kind.tier? = some (n + 1))
    (hright : operand.read behind = .stuck cause rest) :
    extend (operators n) operand left s = .stuck cause rest := by
  obtain ⟨q, htake, hq, -⟩ := take?_of_after hbehind (mem_operators_iff.2 hoperator)
  have hq : q = behind := hq.rest_eq hbehind
  subst hq
  rw [extend]
  split
  · simp_all
  · split <;> simp_all

theorem level_succ_of_done {operand : Rule Expr}
    (h : (level operand n).read s = .done left rest) :
    (level operand (n + 1)).read s =
      extend (operators n) (level operand n) left rest := by
  change ((level operand n).read s).bind _ = _
  rw [h]
  rfl

theorem level_succ_of_stuck {operand : Rule Expr} {cause : SyntaxFault}
    (h : (level operand n).read s = .stuck cause rest) :
    (level operand (n + 1)).read s = .stuck cause rest := by
  change ((level operand n).read s).bind _ = _
  rw [h]
  rfl

theorem level_of_le {operand : Rule Expr} (h : (level operand n).read s = .done e rest)
    (hle : n ≤ m) (hends : rest.peek.Ends m) : (level operand m).read s = .done e rest := by
  induction hle with
  | refl => exact h
  | step hle ih =>
    rw [level_succ_of_done (ih (hends.mono (Nat.le_succ _)))]
    exact extend_of_ends hends

section Operand

variable {deeper inner : Rule Expr} {t : Token}

theorem operand_unary (hbehind : s.After [operator] behind)
    (hoperator : operator.kind = .symbol .bang ∨ operator.kind = .symbol .minus) :
    (operand deeper inner).read s = (deeper.read behind).map (.unary operator) := by
  obtain ⟨q, htake, hq, -⟩ := take?_of_after hbehind (mem_unaryOperators_iff.2 hoperator)
  have hq : q = behind := hq.rest_eq hbehind
  subst hq
  simp only [operand, htake]

theorem operand_literal {value : Value} (hbehind : s.After [t] behind) (h : t.Denotes value) :
    (operand deeper inner).read s = .done (.literal value) behind := by
  obtain ⟨hkind, rfl⟩ := Token.denotes_iff.1 h
  obtain ⟨q, htake, hq, -⟩ := take?_of_after hbehind hkind
  have hq : q = behind := hq.rest_eq hbehind
  subst hq
  have hunary : s.peek.kind ∉ unaryOperators.map .symbol := by
    rw [hbehind.peek_cons]
    intro hmem
    rcases mem_unaryOperators_iff.1 hmem with hbang | hminus
    · simp [literalKinds, hbang] at hkind
    · simp [literalKinds, hminus] at hkind
  simp only [operand, primary, take?_eq_none hunary, htake]

theorem operand_grouping (hbehind : s.After [t] behind) (ht : t.kind = .symbol .leftParen) :
    (operand deeper inner).read s = (inner.read behind).bind fun e rest =>
      (rest.expect (.symbol .rightParen) .unclosedGrouping).map fun _ => .grouping e := by
  obtain ⟨q, htake, hq, -⟩ := take?_of_after hbehind (List.mem_singleton.2 ht)
  have hq : q = behind := hq.rest_eq hbehind
  subst hq
  have hunary : s.peek.kind ∉ unaryOperators.map .symbol := by
    rw [hbehind.peek_cons, ht]
    decide
  have hliteral : s.peek.kind ∉ literalKinds := by
    rw [hbehind.peek_cons, ht]
    decide
  simp only [operand, primary, take?_eq_none hunary, take?_eq_none hliteral, htake]

theorem operand_start (h : s.peek.kind ∉ starters) :
    (operand deeper inner).read s = .stuck (.unexpectedToken s.peek.lexeme) s := by
  simp only [starters, List.mem_append, not_or] at h
  obtain ⟨⟨hunary, hliteral⟩, hparen⟩ := h
  simp only [operand, primary, take?_eq_none hunary, take?_eq_none hliteral,
    take?_eq_none hparen]

theorem unary_eq_operand (limit room : Nat) :
    ∃ deeper inner, unary limit room = operand deeper inner := by
  cases room with
  | zero => exact ⟨_, _, rfl⟩
  | succ room => exact ⟨_, _, rfl⟩

end Operand

/-- From `s` up to `rest` stands `e`, wherever no operator of its level follows. Where one does,
`e` is the chain that the operator extends. -/
structure Stands (limit room : Nat) (s : TokenStream) (e : Expr) (rest : TokenStream) :
    Prop where
  alone : ∀ n, e.tier ≤ n → rest.peek.Ends n →
    (level (unary limit room) n).read s = .done e rest
  extended : ∀ n, e.tier ≤ n + 1 → rest.peek.Ends n →
    (level (unary limit room) (n + 1)).read s =
      extend (operators n) (level (unary limit room) n) e rest

theorem Stands.of_operand (h : (unary limit room).read s = .done e rest) :
    Stands limit room s e rest := by
  have halone : ∀ n, rest.peek.Ends n → (level (unary limit room) n).read s = .done e rest :=
    fun n hends => level_of_le (n := 0) h (Nat.zero_le n) hends
  exact ⟨fun n _ hends => halone n hends, fun n _ hends => level_succ_of_done (halone n hends)⟩

theorem Stands.binary (hoperator : operator.kind.tier? = some (n + 1))
    (h : rest.peek.Ends n → (level (unary limit room) (n + 1)).read s =
      extend (operators n) (level (unary limit room) n) (.binary left operator right) rest) :
    Stands limit room s (.binary left operator right) rest := by
  have htier : (Expr.binary left operator right).tier = n + 1 := by
    rw [Expr.tier, hoperator]
    rfl
  have halone : ∀ m, n + 1 ≤ m → rest.peek.Ends m →
      (level (unary limit room) m).read s = .done (.binary left operator right) rest := by
    intro m hle hends
    apply level_of_le _ hle hends
    rw [h (hends.mono (by omega))]
    exact extend_of_ends (hends.mono hle)
  constructor
  · intro m hle hends
    exact halone m (htier ▸ hle) hends
  · intro m hle hends
    rw [htier] at hle
    by_cases hm : m = n
    · subst m
      exact h hends
    · exact level_succ_of_done (halone m (by omega) hends)

/-- A tree is found where it is written. -/
theorem stands_of_writtenAs {w : List Token} (hwritten : e.WrittenAs w) (hcanonical : e.Canonical)
    (hnesting : e.nesting ≤ room) (hw : s.After w rest) : Stands limit room s e rest := by
  induction hwritten generalizing room s rest with
  | literal h =>
    obtain ⟨deeper, inner, hunary⟩ := unary_eq_operand limit room
    apply Stands.of_operand
    rw [hunary]
    exact operand_literal hw h
  | @grouping opening closing inner w hopening h hclosing ih =>
    obtain ⟨room, rfl⟩ : ∃ k, room = k + 1 := Nat.exists_eq_add_one.2 (by
      simp only [Expr.nesting] at hnesting
      omega)
    obtain ⟨q, hinner, hclose⟩ := hw.split
    obtain ⟨behind, hbehind, hinner⟩ := hinner.split (a := [opening])
    have hends : q.peek.Ends 4 := by
      rw [hclose.peek_cons]
      exact Token.ends_of_tier?_eq_none (by rw [hclosing]; rfl) 4
    have hread := (ih hcanonical (Nat.le_of_succ_le_succ hnesting) hinner).alone 4
      (Expr.Canonical.tier_le hcanonical) hends
    apply Stands.of_operand
    rw [unary, operand_grouping hbehind hopening, binary_eq_level, hread]
    simp only [Reading.bind, expect_of_after hclose hclosing, Reading.map]
  | @unary operator operand w h ih =>
    obtain ⟨room, rfl⟩ : ∃ k, room = k + 1 := Nat.exists_eq_add_one.2 (by
      simp only [Expr.nesting] at hnesting
      omega)
    obtain ⟨behind, hbehind, hoperand⟩ := hw.split (a := [operator])
    obtain ⟨hoperator, htier, hcanonical⟩ := hcanonical
    have hread := (ih hcanonical (Nat.le_of_succ_le_succ hnesting) hoperand).alone 0
      (Nat.le_of_eq htier) (Token.ends_zero _)
    apply Stands.of_operand
    rw [unary, operand_unary hbehind hoperator]
    change ((level (unary limit room) 0).read behind).map _ = _
    rw [hread]
    rfl
  | @binary left operator right u v hleft hright ihleft ihright =>
    obtain ⟨tier, htier, hlefttier, hrighttier, hleftCanonical, hrightCanonical⟩ := hcanonical
    obtain ⟨n, rfl⟩ : ∃ n, tier = n + 1 := Nat.exists_eq_add_one.2 (Kind.tier?_bounds htier).1
    obtain ⟨hleftNesting, hrightNesting⟩ := Nat.max_le.1 hnesting
    obtain ⟨q, hu, hq⟩ := hw.split
    obtain ⟨behind, hbehind, hv⟩ := hq.split (a := [operator])
    have hends : q.peek.Ends n := by
      rw [hq.peek_cons]
      exact Token.ends_of_tier? htier
    have hleftRead := (ihleft hleftCanonical hleftNesting hu).extended n hlefttier hends
    apply Stands.binary htier
    intro hrest
    have hrightRead := (ihright hrightCanonical hrightNesting hv).alone n
      (Nat.le_of_lt_succ hrighttier) hrest
    rw [hleftRead, extend_of_done hbehind htier hrightRead]

theorem stands_of_fits (limit : Nat) {w : List Token} (h : e.Fits n room w)
    (hw : s.After w rest) : Stands limit room s e rest :=
  stands_of_writtenAs h.written h.canonical h.nesting_le hw

/-- Beyond the limit an expression breaks off whatever comes next. -/
theorem Breaks.at_limit {w : List Token} {t u : Token}
    (h : Breaks limit n room w t (.nestedDeeperThan m)) :
    Breaks limit n room w u (.nestedDeeperThan m) := by
  generalize hcause : SyntaxFault.nestedDeeperThan m = cause at h
  induction h with
  | start h => cases hcause
  | deep h => cases hcause; exact .deep h
  | operand hoperator h ih => exact .operand hoperator (ih hcause)
  | inner hopening h ih => exact .inner hopening (ih hcause)
  | unclosed hopening h hends hclosing => cases hcause
  | left h ih => exact .left (ih hcause)
  | right hleft hoperator h ih => exact .right hleft hoperator (ih hcause)

/-- A reading is stuck where the tokens break off. -/
theorem stuck_of_breaks {w : List Token} {t : Token} {cause : SyntaxFault}
    (h : Breaks limit n room w t cause) (hw : s.After w rest) (ht : rest.peek = t) :
    (level (unary limit room) n).read s = .stuck cause rest := by
  induction h generalizing s with
  | @start room t h =>
    obtain ⟨deeper, inner, hunary⟩ := unary_eq_operand limit room
    have hrest : rest = s := hw.nil_eq
    subst hrest
    subst ht
    change (unary limit room).read rest = _
    rw [hunary]
    exact operand_start h
  | deep h =>
    rcases List.mem_append.1 h with hunary | hparen
    · exact operand_unary hw (mem_unaryOperators_iff.1 hunary)
    · exact operand_grouping hw (List.mem_singleton.1 hparen)
  | @operand room operator t w cause hoperator h ih =>
    obtain ⟨behind, hbehind, hoperand⟩ := hw.split (a := [operator])
    have hread := ih hoperand ht
    change (unary limit (room + 1)).read s = _
    rw [unary, operand_unary hbehind hoperator]
    change ((level (unary limit room) 0).read behind).map _ = _
    rw [hread]
    rfl
  | @inner room opening t w cause hopening h ih =>
    obtain ⟨behind, hbehind, hinner⟩ := hw.split (a := [opening])
    have hread := ih hinner ht
    change (unary limit (room + 1)).read s = _
    rw [unary, operand_grouping hbehind hopening, binary_eq_level, hread]
    rfl
  | @unclosed room opening t e w hopening h hends hclosing =>
    obtain ⟨behind, hbehind, hinner⟩ := hw.split (a := [opening])
    subst ht
    have hread := (stands_of_fits limit h hinner).alone 4 h.tier_le hends
    change (unary limit (room + 1)).read s = _
    rw [unary, operand_grouping hbehind hopening, binary_eq_level, hread]
    simp only [Reading.bind, expect_of_ne hclosing, Reading.map]
  | left h ih => exact level_succ_of_stuck (ih hw ht)
  | @right n room left operator t u v cause hleft hoperator h ih =>
    obtain ⟨q, hu, hq⟩ := hw.split
    obtain ⟨behind, hbehind, hv⟩ := hq.split (a := [operator])
    have hends : q.peek.Ends n := by
      rw [hq.peek_cons]
      exact Token.ends_of_tier? hoperator
    have hleftRead := (stands_of_fits limit hleft hu).extended n hleft.tier_le hends
    rw [hleftRead]
    exact extend_of_stuck hbehind hoperator (ih hv ht)

end Completeness

variable {limit : Nat} {s rest : TokenStream}

theorem expression_eq_done_iff {e : Expr} (hs : s.Proper) :
    (expression limit).read s = .done e rest ↔
      ∃ w, s.After w rest ∧ e.Fits 4 limit w ∧ rest.peek.Ends 4 := by
  constructor
  · intro h
    have hexplained := explained limit limit 4 hs
    change Explained limit 4 limit s ((expression limit).read s) at hexplained
    rwa [h] at hexplained
  · rintro ⟨w, hw, he, hends⟩
    exact (stands_of_fits limit he hw).alone 4 he.tier_le hends

theorem expression_eq_stuck_iff {cause : SyntaxFault} (hs : s.Proper) :
    (expression limit).read s = .stuck cause rest ↔
      ∃ w, s.After w rest ∧ Breaks limit 4 limit w rest.peek cause := by
  constructor
  · intro h
    have hexplained := explained limit limit 4 hs
    change Explained limit 4 limit s ((expression limit).read s) at hexplained
    rwa [h] at hexplained
  · rintro ⟨w, hw, hbreaks⟩
    exact stuck_of_breaks hbreaks hw rfl

end Grammar

end LoxSyntax
