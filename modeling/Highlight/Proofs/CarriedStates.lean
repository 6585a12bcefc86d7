import Highlight.Proofs.DocumentPositions
import Highlight.Proofs.LineContinuation
import Highlight.Scan.Session

/-! What scripts carry from line to line. A line that leaves a construct open ends in that construct, so no line leaves
both open, or one of them and a member access. The rest of a line is never given up, whatever the lines before it
left behind and whichever dialects they were read in. -/

namespace Highlight
open Scan

namespace Scan

/-- The last piece of a line is a comment or a template literal, or part of one. -/
def EndsInConstruct (lexemes : List Lexeme) : Prop :=
  ∃ before, ∃ construct : Construct, ∃ piece, lexemes = before ++ [⟨some construct.kind, piece⟩]

theorem EndsInConstruct.cons (first : Lexeme) {lexemes : List Lexeme} (ends : EndsInConstruct lexemes) :
    EndsInConstruct (first :: lexemes) := by
  obtain ⟨before, construct, piece, rfl⟩ := ends
  exact ⟨first :: before, construct, piece, rfl⟩

theorem EndsInConstruct.endsInAccess {lexemes : List Lexeme} (ends : EndsInConstruct lexemes) (before : Bool) (offset : Int) :
    endsInAccess before (place offset lexemes) = false := by
  obtain ⟨earlier, construct, piece, rfl⟩ := ends
  rw [place_append, Highlight.endsInAccess, place, place, List.getLast?_concat]
  cases construct <;> rfl

namespace ScriptLine
variable {words : Vocabulary}

private theorem read_open {c : Char} {following : List Char} (opened : (read words c following).carry.isOpen = true) :
    ∃ construct : Construct, (read words c following).kind = some construct.kind := by
  by_cases opens : ∃ construct : Construct, construct.opening <+: c :: following
  · obtain ⟨construct, inside, same⟩ := opens
    exact ⟨construct, by rw [read_opening words same.symm]⟩
  · rw [read_ordinary words fun construct prefixed => opens ⟨construct, prefixed⟩] at opened
    cases opened

/-- Only the last reading of a text can leave something open. -/
theorem scan_open (carry : Carry) (text : List Char) (opened : ((reader words).scan carry text).2.isOpen = true) :
    (text = [] ∧ carry.isOpen = true) ∨ EndsInConstruct ((reader words).scan carry text).1 := by
  fun_induction Reader.scan (reader words) carry text with
  | case1 carry => exact Or.inl ⟨rfl, opened⟩
  | case2 carry c following reading lexemes last same ih =>
    rw [same] at ih
    refine Or.inr ?_
    rcases ih opened with ⟨nothing, still⟩ | ends
    · obtain ⟨construct, kind⟩ := read_open still
      rw [nothing, Reader.scan] at same
      cases same
      exact ⟨[], construct, c :: reading.body.taken, by rw [← kind]; rfl⟩
    · exact ends.cons _

private theorem code_open (atStart : Bool) (text : List Char) (opened : (code words atStart text).2.isOpen = true) :
    EndsInConstruct (code words atStart text).1 := by
  unfold code at opened ⊢
  split at opened
  · cases opened
  · exact (scan_open .neutral text opened).resolve_left fun start => Bool.false_ne_true start.2

private theorem lexemes_open_ends {carry : Carry} (single : carry.Single) (line : List Char)
    (opened : (lexemes words true carry line).2.isOpen = true) : EndsInConstruct (lexemes words true carry line).1 := by
  obtain ⟨left, rfl⟩ := single.exists_left
  cases left with
  | none => exact code_open true line opened
  | some construct =>
    cases complete : (construct.tail line).complete with
    | true =>
      rw [lexemes_closed words complete] at opened ⊢
      exact (code_open false _ opened).cons _
    | false =>
      rw [lexemes_open words complete]
      exact ⟨[], construct, (construct.tail line).taken, rfl⟩

end ScriptLine
end Scan

/-- At most one construct is open, and none beside a member access. -/
structure ScriptState.Consistent (state : ScriptState) : Prop where
  single : state.carry.Single
  settled : state.carry.isOpen = true → state.inElement = false

theorem ScriptState.consistent_neutral : neutral.Consistent := ⟨Carry.single_neutral, nofun⟩

theorem Grammar.scriptLine_consistent (words : Vocabulary) {state : ScriptState} (consistent : state.Consistent)
    (line : List Char) : (scriptLine words state line).2.Consistent :=
  ⟨(ScriptLine.lexemes_scanned words true consistent.single line).single,
    fun opened => (ScriptLine.lexemes_open_ends consistent.single line opened).endsInAccess state.inElement 0⟩

/-- A line for one of the grammars of scripts, which may be asked for any dialect. -/
structure ScriptCall where
  grammar : Grammar
  script : grammar = .javascript ∨ grammar = .typescript
  dialect : Option String
  line : List Char

namespace ScriptCall

def words (call : ScriptCall) : Vocabulary := Grammar.vocabulary (call.dialect.getD call.grammar.ownDialect)

def parse (call : ScriptCall) (previous : Option ParserState) : Except ForeignState (List Token × Option ParserState) :=
  call.grammar.parseLine call.dialect previous call.line

def run (previous : Option ParserState) : List ScriptCall → Except ForeignState (Option ParserState)
  | [] => .ok previous
  | call :: others => do
    let (_, next) ← call.parse previous
    run next others

variable {previous : Option ParserState} {state : ScriptState}

private theorem parse_state (call : ScriptCall) (known : StateOf previous state) :
    call.parse previous = .ok ((Grammar.scriptLine call.words state call.line).1,
      some (.ofScript (Grammar.scriptLine call.words state call.line).2)) := by
  obtain ⟨grammar, script, dialect, line⟩ := call
  rcases script with rfl | rfl <;> cases known <;> rfl

private theorem run_consistent (known : StateOf previous state) (consistent : state.Consistent) (calls : List ScriptCall) :
    ∃ last left, run previous calls = .ok last ∧ StateOf last left ∧ left.Consistent := by
  induction calls generalizing previous state with
  | nil => exact ⟨previous, state, rfl, known, consistent⟩
  | cons call others ih =>
    obtain ⟨last, left, finished, same, kept⟩ :=
      ih (.after (Grammar.scriptLine call.words state call.line).2) (Grammar.scriptLine_consistent call.words consistent call.line)
    refine ⟨last, left, ?_, same, kept⟩
    rw [run, call.parse_state known]
    exact finished

private theorem scan_state (call : ScriptCall) (known : StateOf previous state) :
    ∃ session, ({ scanner := .script call.words } : Session).scan (previous.bind fun state => state.continuation.scanner) call.line =
        .ok (session, .script (ScriptLine.lexemes call.words true state.carry call.line).2) ∧
      session.tokens = place 0 (ScriptLine.lexemes call.words true state.carry call.line).1 ∧
      session.position = ((ScriptLine.lexemes call.words true state.carry call.line).1.flatMap Lexeme.text).length := by
  cases known with
  | start => exact Session.scan_script call.words none call.line
  | after state => exact Session.scan_script call.words (some state.carry) call.line

end ScriptCall

theorem ParserState.markOf_iff {carry : Carry} (single : carry.Single) :
    (markOf carry = 1 ↔ carry.inComment = true) ∧ (markOf carry = 2 ↔ carry.inTemplate = true) ∧
      (markOf carry = 0 ↔ carry.inComment = false ∧ carry.inTemplate = false) := by
  obtain ⟨left, rfl⟩ := single.exists_left
  match left with
  | none | some .comment | some .template => decide

/-- After any lines of scripts, in whatever dialects they are read, a further line is parsed and scanned to its very end. The
state it leaves says of one construct at most that it is open there, its mark is the construct, and no member access is open
beside it. -/
theorem carried_states_consistent (before : List ScriptCall) (call : ScriptCall) :
    ∃ previous state tokens carry continuing mark inElement session,
      ScriptCall.run none before = .ok previous ∧ StateOf previous state ∧
      call.parse previous = .ok (tokens, some (.script ⟨some (.script carry), continuing, mark⟩ inElement)) ∧
      (carry.inComment = false ∨ carry.inTemplate = false) ∧
      (continuing = true ↔ carry.inComment = true ∨ carry.inTemplate = true) ∧
      (mark = 1 ↔ carry.inComment = true) ∧ (mark = 2 ↔ carry.inTemplate = true) ∧
      (mark = 0 ↔ carry.inComment = false ∧ carry.inTemplate = false) ∧
      (inElement = true → carry.inComment = false ∧ carry.inTemplate = false) ∧
      ({ scanner := .script call.words } : Session).scan (previous.bind fun state => state.continuation.scanner) call.line =
        .ok (session, .script carry) ∧
      tokens = scriptRoles state.inElement session.tokens ∧ session.position = call.line.length := by
  obtain ⟨previous, state, finished, known, consistent⟩ := ScriptCall.run_consistent .start ScriptState.consistent_neutral before
  obtain ⟨session, scanned, placed, ended⟩ := call.scan_state known
  have kept := Grammar.scriptLine_consistent call.words consistent call.line
  have whole := (ScriptLine.lexemes_scanned call.words true consistent.single call.line).whole
  rw [List.flatMap, whole] at ended
  obtain ⟨comment, template, neither⟩ := ParserState.markOf_iff kept.single
  refine ⟨previous, state, _, _, _, _, _, session, finished, known, call.parse_state known, kept.single, ?_, comment, template,
    neither, ?_, scanned, ?_, ended⟩
  · exact Bool.or_eq_true_iff
  · intro access
    refine Bool.or_eq_false_iff.mp (Bool.eq_false_iff.mpr fun opened => ?_)
    exact Bool.false_ne_true ((kept.settled opened).symm.trans access)
  · rw [placed]
    rfl

end Highlight
