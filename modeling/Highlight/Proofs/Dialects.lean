import Highlight.Proofs.DocumentPositions
import Highlight.Proofs.TypescriptWords

/-! The empty dialect. It is a dialect like any other: a grammar that is asked for it gives up its own dialect,
and reads JavaScript if it is the grammar of TypeScript. What is carried to the next line is the same, so all that
is lost are the words that TypeScript sets apart. -/

namespace Highlight
open Scan

theorem Token.typescript_eq_self_iff {token : Token} :
    token.typescript = token ↔ (token.kind.isName = true → Vocabulary.typescriptKind? token.text = none) := by
  constructor
  · intro same name
    cases found : Vocabulary.typescriptKind? token.text with
    | none => rfl
    | some special =>
      have kind : token.kind = special := by
        rw [← TokenKind.typescript_of_name name found]
        exact (congrArg Token.kind same).symm
      rw [kind] at name
      rcases (Vocabulary.typescriptKind?_eq_some found).2 with rfl | rfl <;> cases name
  · intro plain
    cases name : token.kind.isName with
    | false => exact typescript_of_other name
    | true => exact typescript_of_plain (plain name)

private theorem map_typescript_eq_self_iff {tokens : List Token} :
    tokens.map Token.typescript = tokens ↔
      ∀ token ∈ tokens, token.kind.isName = true → Vocabulary.typescriptKind? token.text = none := by
  have each : tokens.map Token.typescript = tokens.map id ↔ ∀ token ∈ tokens, token.typescript = id token := List.map_inj_left
  rw [List.map_id] at each
  exact each.trans (forall₂_congr fun token _ => Token.typescript_eq_self_iff)

def Grammar.Produces (grammar : Grammar) (state : Option ParserState) : Prop :=
  ∃ dialect before line tokens, grammar.parseLine dialect before line = .ok (tokens, state)

theorem Grammar.Produces.stateOf {grammar : Grammar} {previous : Option ParserState} (produced : grammar.Produces previous) :
    ∃ state, StateOf previous state := by
  obtain ⟨dialect, before, line, tokens, parsed⟩ := produced
  cases grammar with
  | json | text =>
    cases parsed
    exact ⟨_, .start⟩
  | javascript | typescript =>
    cases before with
    | none =>
      cases parsed
      exact ⟨_, .after _⟩
    | some before =>
      cases accepted : before.scriptState? with
      | error foreign =>
        simp only [parseLine, accepted, bind, Except.bind] at parsed
        cases parsed
      | ok state =>
        simp only [parseLine, accepted, bind, Except.bind] at parsed
        cases parsed
        exact ⟨_, .after _⟩

/-- A grammar reads a line in its own dialect as in the empty one, but for the words of TypeScript. -/
theorem Grammar.line_own (grammar : Grammar) (state : ScriptState) (line : List Char) :
    grammar.line grammar.ownDialect state line =
      (if grammar = .typescript then (grammar.line "" state line).1.map Token.typescript else (grammar.line "" state line).1,
        (grammar.line "" state line).2) := by
  cases grammar with
  | typescript => exact scriptLine_typescript state line
  | javascript | json | text => rfl

section
variable {language : Language} {grammar : Grammar} {previous : Option ParserState} {state : ScriptState}

theorem Grammar.parseLine_own (known : StateOf previous state) (grammar : Grammar) (line : List Char) :
    ∃ next, grammar.parseLine (some "") previous line = .ok ((grammar.line "" state line).1, next) ∧
      grammar.parseLine none previous line = .ok ((grammar.line grammar.ownDialect state line).1, next) := by
  cases grammar with
  | json | text => exact ⟨none, rfl, rfl⟩
  | javascript => cases known <;> exact ⟨_, rfl, rfl⟩
  | typescript =>
    have kept := congrArg Prod.snd (Grammar.typescript.line_own state line)
    dsimp only at kept
    refine ⟨some (.ofScript (Grammar.typescript.line "" state line).2), ?_, ?_⟩
    · cases known <;> rfl
    · rw [← kept]
      cases known <;> rfl

/-- Asking for the empty dialect is asking for none, unless a line of TypeScript holds a word that only TypeScript sets
apart; such words are names then, and the next line begins in the same state. -/
theorem empty_dialect_is_own_iff (registered : Registry.builtin.grammar? language = some grammar)
    (produced : previous = none ∨ grammar.Produces previous) (line : List Char) :
    ∃ tokens next, grammar.parseLine (some "") previous line = .ok (tokens, next) ∧
      grammar.parseLine none previous line =
        .ok (if language = .typescript then tokens.map Token.typescript else tokens, next) ∧
      (grammar.parseLine (some "") previous line = grammar.parseLine none previous line ↔
        (language = .typescript → ∀ token ∈ tokens, token.kind.isName = true → Vocabulary.typescriptKind? token.text = none)) := by
  obtain ⟨state, known⟩ : ∃ state, StateOf previous state := by
    rcases produced with rfl | produced
    · exact ⟨_, .start⟩
    · exact produced.stateOf
  obtain ⟨next, asked, own⟩ := grammar.parseLine_own known line
  have same : language = .typescript ↔ grammar = .typescript := by
    cases language <;> cases registered <;> decide
  rw [grammar.line_own] at own
  simp only [← same] at own
  refine ⟨_, next, asked, own, ?_⟩
  rw [asked, own]
  by_cases typescript : language = .typescript
  · simp only [typescript, if_true, true_imp_iff, Except.ok.injEq, Prod.mk.injEq, and_true]
    exact eq_comm.trans map_typescript_eq_self_iff
  · simp only [typescript, if_false, true_iff]
    nofun

end

theorem empty_dialect_is_own_iff_element :
    Registry.builtin.grammar? .typescript = some .typescript ∧
      Grammar.typescript.Produces (some (.ofScript ⟨.neutral, true⟩)) ∧
      ∃ next, Grammar.typescript.parseLine (some "") (some (.ofScript ⟨.neutral, true⟩)) "type".toList =
          .ok ([⟨.element, "type".toList, 0⟩], next) ∧
        Grammar.typescript.parseLine none (some (.ofScript ⟨.neutral, true⟩)) "type".toList =
          .ok ([⟨.keyword, "type".toList, 0⟩], next) := by
  have produced : Grammar.typescript.Produces (some (.ofScript ⟨.neutral, true⟩)) := by
    have read : Grammar.typescript.line "ts" .neutral "o.".toList =
        ([⟨.identifier, "o".toList, 0⟩, ⟨.operator, ".".toList, 1⟩], ⟨.neutral, true⟩) := by decide +kernel
    refine ⟨none, none, "o.".toList, [⟨.identifier, "o".toList, 0⟩, ⟨.operator, ".".toList, 1⟩], ?_⟩
    change Except.ok ((Grammar.typescript.line "ts" .neutral "o.".toList).1,
      some (ParserState.ofScript (Grammar.typescript.line "ts" .neutral "o.".toList).2)) = _
    rw [read]
  have read : Grammar.typescript.line "" ⟨.neutral, true⟩ "type".toList = ([⟨.element, "type".toList, 0⟩], .neutral) := by decide +kernel
  have registered : Registry.builtin.grammar? .typescript = some .typescript := rfl
  obtain ⟨tokens, next, asked, own, -⟩ := empty_dialect_is_own_iff registered (Or.inr produced) "type".toList
  obtain ⟨rfl, rfl⟩ : tokens = [⟨.element, "type".toList, 0⟩] ∧ next = some (.ofScript .neutral) := by
    change Except.ok ((Grammar.typescript.line "" ⟨.neutral, true⟩ "type".toList).1,
      some (ParserState.ofScript (Grammar.typescript.line "" ⟨.neutral, true⟩ "type".toList).2)) = _ at asked
    rw [read] at asked
    cases asked
    exact ⟨rfl, rfl⟩
  have keyword : [(⟨.element, "type".toList, 0⟩ : Token)].map Token.typescript = [⟨.keyword, "type".toList, 0⟩] := by decide
  rw [if_pos rfl, keyword] at own
  exact ⟨registered, produced, _, asked, own⟩

/-- The empty dialect makes a name of a word of TypeScript. -/
theorem empty_dialect_is_not_own :
    ¬ ∀ (language : Language) (grammar : Grammar) (previous : Option ParserState) (line : List Char),
      Registry.builtin.grammar? language = some grammar → (previous = none ∨ grammar.Produces previous) →
      grammar.parseLine (some "") previous line = grammar.parseLine none previous line := by
  intro law
  have same := law .typescript .typescript none "type".toList rfl (Or.inl rfl)
  change Except.ok ((Grammar.typescript.line "" .neutral "type".toList).1, _) =
    Except.ok ((Grammar.typescript.line "ts" .neutral "type".toList).1, _) at same
  have asked : (Grammar.typescript.line "" .neutral "type".toList).1 = [⟨.identifier, "type".toList, 0⟩] := by decide +kernel
  have own : (Grammar.typescript.line "ts" .neutral "type".toList).1 = [⟨.keyword, "type".toList, 0⟩] := by decide +kernel
  rw [asked, own] at same
  exact absurd (congrArg Prod.fst (Except.ok.inj same)) (by decide)

end Highlight
