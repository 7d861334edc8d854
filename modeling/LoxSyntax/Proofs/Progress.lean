import Mathlib
import LoxSyntax.Proofs.Machines
import LoxSyntax.Proofs.WholeExpressions

/-!
Progress of a program. Every turn of its loop finds one statement or one fault and passes at least
one token, whether the statement succeeds or not, but never the end mark. So the loop ends at the
mark, and it has found no more statements and faults together than there are tokens in front of it.
-/

namespace LoxSyntax.Machine.Course

open Relation

variable {settings : Settings} {tape : TokenTape} {s : TokenStream} {course next : Course}

/-- Nothing has been read yet. -/
def start (tape : TokenTape) : Course := ⟨[], [], ⟨tape, 0⟩⟩

/-- The turn that is taken while the end mark is not in view. -/
def Turns (settings : Settings) (course next : Course) : Prop :=
  course.machine.tape.atEnd? = some false ∧ course.turn? settings = some next

/-- How many statements and faults have been found. -/
def finds (course : Course) : Nat := course.found.length + course.faults.length

/-- What every turn keeps: the tape shows the stream `s`, which ends where the stream of the whole
tape does, and a token has been passed for everything found. -/
structure Sound (tape : TokenTape) (s : TokenStream) (course : Course) : Prop where
  shows_stream : course.machine.tape.Shows s
  depth_eq : course.machine.depth = 0
  length_eq : s.index + s.pending.length = tape.firstMark
  finds_le : course.finds ≤ s.index

theorem exists_sound_start {tokens : List Token} (h : TokenTape.ofTokens tokens = .ok tape) :
    ∃ s, Sound tape s (start tape) := by
  obtain ⟨rfl, -⟩ := TokenTape.ofTokens_eq_ok_iff.1 h
  have hhead : (⟨tokens, 0, []⟩ : TokenTape).head ≤ (⟨tokens, 0, []⟩ : TokenTape).firstMark :=
    Nat.zero_le _
  obtain ⟨s, hshows, hlength⟩ := TokenTape.exists_shows_of_le h hhead
  exact ⟨s, hshows, rfl, hlength, Nat.zero_le _⟩

theorem Sound.head_le (h : Sound tape s course) :
    course.machine.tape.head ≤ tape.firstMark := by
  rw [h.shows_stream.head_eq, ← h.length_eq]
  exact Nat.le_add_right _ _

theorem Sound.atEnd?_eq_false (h : Sound tape s course)
    (hlt : course.machine.tape.head < tape.firstMark) :
    s.atEnd = false ∧ course.machine.tape.atEnd? = some false := by
  have hend : s.atEnd = false := by
    rw [h.shows_stream.head_eq, ← h.length_eq] at hlt
    have hpending : s.pending ≠ [] := List.length_pos_iff.1 (by omega)
    exact List.isEmpty_eq_false_iff.2 hpending
  exact ⟨hend, hend ▸ h.shows_stream.atEnd?_eq⟩

/-- A reading comes to one value or to one fault. -/
theorem length_found (reading : Reading Statement) :
    reading.value?.toList.length + reading.diagnostic?.toList.length = 1 := by
  cases reading with
  | done value rest => rfl
  | stuck cause rest => rfl

/-- A turn finds one statement or fault and passes at least one token, but not the end mark. -/
theorem Sound.exists_next (settings : Settings) (h : Sound tape s course)
    (hend : s.atEnd = false) :
    ∃ next r, course.turn? settings = some next ∧ Sound tape r next ∧ s.index < r.index ∧
      next.finds = course.finds + 1 := by
  have hturn := turn?_eq settings course.found course.faults h.shows_stream h.depth_eq
  -- A failing statement may move nowhere, and so may the recovery behind it, but not both.
  have hfewer := Attempt.length_resumed_lt settings.statement s hend
  obtain ⟨w, hw⟩ := (settings.statement.forward s).onward
  obtain ⟨v, hv⟩ := (Attempt.make settings.statement s).exists_after_resumed
  have hafter : s.After (w ++ v) (Attempt.make settings.statement s).resumed := hw.trans hv
  have hindex := hafter.index_eq
  have htotal := hafter.length_pending
  have hlength := h.length_eq
  have hfinds := h.finds_le
  have hone := length_found (settings.statement.read s)
  have hnext : (course.found ++ (settings.statement.read s).value?.toList).length +
      (course.faults ++ (settings.statement.read s).diagnostic?.toList).length =
        course.finds + 1 := by
    rw [List.length_append, List.length_append, finds]
    omega
  refine ⟨_, _, hturn, ⟨Shows.after h.shows_stream, h.depth_eq, ?_, ?_⟩, ?_, hnext⟩
  · omega
  · rw [finds, hnext]
    omega
  · omega

theorem Sound.exists_of_reached (h : Sound tape s course)
    (hreached : ReflTransGen (Turns settings) course next) : ∃ r, Sound tape r next := by
  induction hreached with
  | refl => exact ⟨s, h⟩
  | tail hreached hturns ih =>
    obtain ⟨r, hr⟩ := ih
    obtain ⟨hend, hturn⟩ := hturns
    rw [hr.shows_stream.atEnd?_eq] at hend
    obtain ⟨found, q, hfound, hq, -⟩ := hr.exists_next settings (Option.some.inj hend)
    cases hturn.symm.trans hfound
    exact ⟨q, hq⟩

/-- The tokens in front of the end mark are turns enough for the loop to end there. -/
theorem Sound.exists_last (settings : Settings) (h : Sound tape s course) {turns : Nat}
    (hturns : s.pending.length < turns) :
    ∃ last r, ReflTransGen (Turns settings) course last ∧ Sound tape r last ∧ r.atEnd = true ∧
      program settings turns course.found course.faults course.machine =
        some (last.result, last.machine) := by
  induction turns generalizing course s with
  | zero => exact absurd hturns (Nat.not_lt_zero _)
  | succ turns ih =>
    rw [program_succ, h.shows_stream.atEnd?_eq, Option.bind_some]
    cases hend : s.atEnd with
    | true => exact ⟨course, s, .refl, h, hend, rfl⟩
    | false =>
      obtain ⟨next, r, hturn, hr, hindex, -⟩ := h.exists_next settings hend
      have hfewer : r.pending.length < turns := by
        have hlength := h.length_eq
        have hlength' := hr.length_eq
        omega
      obtain ⟨last, q, hreached, hq, hqend, hprogram⟩ := ih hr hfewer
      have hfirst : Turns settings course next := ⟨hend ▸ h.shows_stream.atEnd?_eq, hturn⟩
      refine ⟨last, q, .head hfirst hreached, hq, hqend, ?_⟩
      rw [hturn]
      exact hprogram

/-- Every turn of the loop that reads a program leaves the tape further than it was, and not behind
the first end mark. So the loop ends with the tape at that mark, and there are no more statements
and faults together than tokens in front of it. -/
theorem program_progress (settings : Settings) {tokens : List Token} {tape : TokenTape}
    (h : TokenTape.ofTokens tokens = .ok tape) :
    (∀ course, ReflTransGen (Turns settings) (start tape) course →
      course.machine.tape.head ≤ tape.firstMark ∧
      (course.machine.tape.head < tape.firstMark →
        ∃ next, Turns settings course next ∧
          course.machine.tape.head < next.machine.tape.head ∧
          next.machine.tape.head ≤ tape.firstMark ∧
          next.found.length + next.faults.length =
            course.found.length + course.faults.length + 1)) ∧
    ∃ last, ReflTransGen (Turns settings) (start tape) last ∧
      last.machine.tape.atEnd? = some true ∧ last.machine.tape.head = tape.firstMark ∧
      readProgram settings tape = some (last.result, last.machine) ∧
      last.found.length + last.faults.length ≤ tape.firstMark := by
  obtain ⟨s, hs⟩ := exists_sound_start h
  constructor
  · intro course hreached
    obtain ⟨r, hr⟩ := hs.exists_of_reached hreached
    refine ⟨hr.head_le, fun hlt => ?_⟩
    obtain ⟨hend, hview⟩ := hr.atEnd?_eq_false hlt
    obtain ⟨next, q, hturn, hq, hindex, hfinds⟩ := hr.exists_next settings hend
    refine ⟨next, ⟨hview, hturn⟩, ?_, hq.head_le, hfinds⟩
    rw [hr.shows_stream.head_eq, hq.shows_stream.head_eq]
    exact hindex
  · obtain ⟨last, r, hreached, hr, hend, hprogram⟩ :=
      hs.exists_last settings hs.shows_stream.length_pending_lt
    have hpending : r.pending = [] := List.isEmpty_iff.1 hend
    have hmark : r.index = tape.firstMark := by
      rw [← hr.length_eq, hpending, List.length_nil, Nat.add_zero]
    refine ⟨last, hreached, hend ▸ hr.shows_stream.atEnd?_eq, ?_, hprogram, hmark ▸ hr.finds_le⟩
    rw [hr.shows_stream.head_eq, hmark]

/-- The grouping fails in front of `class`, where nothing is skipped, and `class` itself fails
without being read. So it takes two turns to come behind the semicolon. -/
theorem program_progress_class :
    let tokens := [Symbol.leftParen.token, Word.nilWord.token, Word.classWord.token,
      Word.nilWord.token, Symbol.semicolon.token, Token.mark]
    TokenTape.ofTokens tokens = .ok ⟨tokens, 0, []⟩ ∧
    ∃ last, ReflTransGen (Turns {}) (start ⟨tokens, 0, []⟩) last ∧
      readProgram {} ⟨tokens, 0, []⟩ = some (last.result, last.machine) ∧
      last.machine.tape.head = 5 ∧
      last.result = .error [Word.classWord.token.diagnostic .unclosedGrouping,
        Word.classWord.token.diagnostic (.unexpectedToken "class")] ∧
      last.found.length + last.faults.length ≤ 5 := by
  intro tokens
  have htokens : TokenTape.ofTokens tokens = .ok ⟨tokens, 0, []⟩ := rfl
  obtain ⟨last, hreached, -, hhead, hread, hfinds⟩ := (program_progress {} htokens).2
  refine ⟨htokens, last, hreached, hread, hhead, ?_, hfinds⟩
  have hresult : (readProgram {} ⟨tokens, 0, []⟩).map Prod.fst =
      some (.error [Word.classWord.token.diagnostic .unclosedGrouping,
        Word.classWord.token.diagnostic (.unexpectedToken "class")]) := by
    cbv
  rw [hread] at hresult
  exact Option.some.inj hresult

end LoxSyntax.Machine.Course
