import LoxSyntax.Grammar

/-!
Programs: statements up to the end of the stream. Each statement is an attempt. After one that
fails, reading goes on behind the next semicolon or at the next word that can begin a statement,
so one pass finds the faults of all statements. The history of the attempts holds all that there
is to say about a run; its result is read off it.
-/

namespace LoxSyntax

/-- The words at which reading may go on after a fault. -/
def statementWords : List Word :=
  [.classWord, .funWord, .varWord, .forWord, .ifWord, .whileWord, .printWord, .returnWord]

namespace TokenStream

/-- Whether a statement may begin here: behind a semicolon, at one of the words, or at the end. -/
def atBoundary (s : TokenStream) : Bool :=
  s.atEnd || s.previous?.any (·.kind = .symbol .semicolon) || s.sees (statementWords.map .word)

theorem length_advance_lt {s : TokenStream} (h : s.atEnd = false) :
    s.advance.pending.length < s.pending.length := by
  cases hpending : s.pending with
  | nil => simp [atEnd, hpending] at h
  | cons t rest => simp [advance, hpending]

def toBoundary (s : TokenStream) : TokenStream :=
  if _hboundary : s.atBoundary then s else s.advance.toBoundary
termination_by s.pending.length
decreasing_by
  apply length_advance_lt
  simp only [atBoundary, Bool.or_eq_true, not_or, Bool.not_eq_true] at _hboundary
  exact _hboundary.1.1

theorem length_toBoundary_le (s : TokenStream) :
    s.toBoundary.pending.length ≤ s.pending.length := by
  fun_induction toBoundary s with
  | case1 s hboundary => exact Nat.le_refl _
  | case2 s hboundary ih =>
    apply Nat.le_trans ih
    unfold advance
    split <;> simp_all

/-- Where reading goes on when a statement begun at `begun` is stuck at `s`. A token at which
nothing can begin is passed over, so that no attempt is made twice at one place. -/
def recover (begun s : TokenStream) : TokenStream :=
  (if s.index = begun.index then s.advance else s).toBoundary

end TokenStream

structure Attempt where
  begun : TokenStream
  reading : Reading Statement

namespace Attempt

def make (rule : Rule Statement) (s : TokenStream) : Attempt := ⟨s, rule.read s⟩

/-- Where the next statement begins. -/
def resumed (attempt : Attempt) : TokenStream :=
  match attempt.reading with
  | .done _ rest => rest
  | .stuck _ rest => .recover attempt.begun rest

/-- Every attempt reads or passes over at least one token. -/
theorem length_resumed_lt (rule : Rule Statement) (s : TokenStream) (h : s.atEnd = false) :
    (make rule s).resumed.pending.length < s.pending.length := by
  have hforward := rule.forward s
  unfold resumed make
  dsimp only
  split
  · rename_i value rest hread
    rw [hread] at hforward
    obtain ⟨t, taken, hafter⟩ := hforward
    have htotal := hafter.length_pending
    simp only [List.length_cons] at htotal
    omega
  · rename_i cause rest hread
    rw [hread] at hforward
    obtain ⟨taken, hafter⟩ := hforward
    have htotal := hafter.length_pending
    have hindex := hafter.index_eq
    apply Nat.lt_of_le_of_lt (TokenStream.length_toBoundary_le _)
    split
    · have hlength : rest.pending.length = s.pending.length := by omega
      rw [← hlength]
      apply TokenStream.length_advance_lt
      simpa only [TokenStream.atEnd, List.isEmpty_eq_false_iff_exists_mem,
        ← List.length_pos_iff_exists_mem, hlength] using h
    · omega

end Attempt

/-- The attempts from `s` to the end of the stream. -/
def attempts (rule : Rule Statement) (s : TokenStream) : List Attempt :=
  if _hend : s.atEnd then []
  else
    let attempt := Attempt.make rule s
    attempt :: attempts rule attempt.resumed
termination_by s.pending.length
decreasing_by exact Attempt.length_resumed_lt rule s (by simpa using _hend)

/-- What a history comes to: its faults if it has any, or else its statements. -/
def outcome (history : List Attempt) : Except (Report SyntaxFault) (List Statement) :=
  match history.filterMap (·.reading.diagnostic?) with
  | [] => .ok (history.filterMap (·.reading.value?))
  | faults => .error faults

/-- How statements are to be read. -/
structure Settings where
  terminator : Terminator := .optional
  nestingLimit : Nat := 128

namespace Settings

def expression (settings : Settings) : Rule Expr := Grammar.expression settings.nestingLimit

def statement (settings : Settings) : Rule Statement :=
  Grammar.statement settings.terminator settings.expression

end Settings

def readProgram (settings : Settings) (s : TokenStream) :
    Except (Report SyntaxFault) (List Statement) :=
  outcome (attempts settings.statement s)

def readExpression (settings : Settings) (s : TokenStream) :
    Except (Diagnostic SyntaxFault) Expr :=
  (Grammar.wholeExpression settings.nestingLimit s).result

end LoxSyntax
