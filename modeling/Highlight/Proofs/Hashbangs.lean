import Highlight.Proofs.ConstructTokens
import Highlight.Proofs.DocumentParts

/-! Hashbangs of scripts. A line scanner knows its place in the line and not the place of the line
in the document, so every line that begins with a hash and an exclamation mark is taken for a
hashbang, unless it goes on with a comment or a template literal. -/

namespace Highlight
open Scan

namespace Token

def isHashbang (token : Token) : Bool := token.kind == .preprocessor

private theorem isHashbang_iff {token : Token} : token.isHashbang = true ↔ token.kind = .preprocessor := beq_iff_eq

private theorem scriptRole_of_preprocessor {token : Token} (hashbang : token.kind = .preprocessor) (afterAccess : Bool)
    (next : Option Token) : token.scriptRole afterAccess next = .preprocessor := by
  rcases token.scriptRole_kind afterAccess next with same | identifier | keyword
  · exact same.trans hashbang
  · exact nomatch identifier.symm.trans hashbang
  · exact nomatch keyword.symm.trans hashbang

private theorem scriptRole_ne_preprocessor {token : Token} (other : token.kind ≠ .preprocessor) (afterAccess : Bool)
    (next : Option Token) : token.scriptRole afterAccess next ≠ .preprocessor := by
  unfold scriptRole
  split
  · nofun
  · split
    · nofun
    · exact other

end Token

/-- Hashbangs play no roles, and no role makes a hashbang. -/
theorem filter_scriptRoles (afterAccess : Bool) (tokens : List Token) :
    (scriptRoles afterAccess tokens).filter Token.isHashbang = tokens.filter Token.isHashbang := by
  induction tokens generalizing afterAccess with
  | nil => rfl
  | cons token others ih =>
    by_cases hashbang : token.kind = .preprocessor
    · have kept : { token with kind := token.scriptRole afterAccess others.head? } = token := by
        rw [Token.scriptRole_of_preprocessor hashbang, ← hashbang]
      rw [scriptRoles, kept, List.filter_cons, List.filter_cons, ih]
    · have other := Token.scriptRole_ne_preprocessor hashbang afterAccess others.head?
      rw [scriptRoles, List.filter_cons_of_neg (mt Token.isHashbang_iff.mp other),
        List.filter_cons_of_neg (mt Token.isHashbang_iff.mp hashbang), ih]

namespace Grammar

variable {grammar : Grammar} {dialect : String}

def hashbangs (grammar : Grammar) (dialect : String) (state : ScriptState) (offset : Int) : List (List Char) → List Token
  | [] => []
  | first :: others =>
    (if state.carry.isOpen = false ∧ ScriptLine.IsHashbang first then [⟨.preprocessor, first, offset⟩] else []) ++
      grammar.hashbangs dialect (grammar.line dialect state first).2 (offset + first.length + 1) others

private theorem filter_line (script : grammar = .javascript ∨ grammar = .typescript) (state : ScriptState)
    (line : List Char) :
    (grammar.line dialect state line).1.filter Token.isHashbang =
      if state.carry.isOpen = false ∧ ScriptLine.IsHashbang line then [⟨.preprocessor, line, 0⟩] else [] := by
  have scanned : (grammar.line dialect state line).1 =
      scriptRoles state.inElement (place 0 (ScriptLine.lexemes (vocabulary dialect) true state.carry line).1) := by
    rcases script with rfl | rfl <;> rfl
  rw [scanned, filter_scriptRoles]
  split
  next hashbang =>
    rw [ScriptLine.lexemes_hashbang _ hashbang.1 hashbang.2]
    rfl
  next plain =>
    apply List.filter_eq_nil_iff.mpr
    intro token member hashbang
    have found : ∃ token ∈ place 0 _, token.kind = .preprocessor := ⟨token, member, Token.isHashbang_iff.mp hashbang⟩
    obtain ⟨lexeme, inside, kind⟩ := exists_kind_place.mp found
    cases ScriptLine.lexemes_isRead _ plain lexeme inside _ kind

private theorem filter_lines (script : grammar = .javascript ∨ grammar = .typescript) (state : ScriptState) (offset : Int)
    (lines : List (List Char)) :
    (grammar.lines dialect state offset lines).filter Token.isHashbang = grammar.hashbangs dialect state offset lines := by
  induction lines generalizing state offset with
  | nil => rfl
  | cons first others ih =>
    have kept : Token.isHashbang ∘ Token.shift offset = Token.isHashbang := rfl
    rw [lines_cons, List.filter_append, List.filter_map, kept, filter_line script, ih, hashbangs]
    split
    · simp only [List.map_singleton, Token.shift, Int.zero_add]
    · rfl

private theorem mem_hashbangs_iff {state : ScriptState} {offset : Int} {lines : List (List Char)} {token : Token} :
    token ∈ grammar.hashbangs dialect state offset lines ↔
      ∃ before line after, lines = before ++ line :: after ∧ ScriptLine.IsHashbang line ∧
        (grammar.leaves dialect state before).carry.isOpen = false ∧
        token = ⟨.preprocessor, line, offset + Text.extent before⟩ := by
  induction lines generalizing state offset with
  | nil => simp [hashbangs]
  | cons first others ih =>
    rw [hashbangs, List.mem_append, ih]
    constructor
    · rintro (here | ⟨before, line, after, rfl, hashbang, closed, rfl⟩)
      · split at here
        next hashbang =>
          rw [List.mem_singleton.mp here]
          exact ⟨[], first, others, rfl, hashbang.2, hashbang.1, by simp [Text.extent]⟩
        · cases here
      · refine ⟨first :: before, line, after, rfl, hashbang, closed, ?_⟩
        congr 1
        simp only [Text.extent]
        omega
    · rintro ⟨before, line, after, whole, hashbang, closed, rfl⟩
      cases before with
      | nil =>
        cases whole
        rw [if_pos ⟨closed, hashbang⟩]
        exact Or.inl (List.mem_singleton.mpr (by simp [Text.extent]))
      | cons head before =>
        cases whole
        refine Or.inr ⟨before, line, after, rfl, hashbang, closed, ?_⟩
        congr 1
        simp only [Text.extent]
        omega

/-- A line of a text that is read as a hashbang: it begins with a hash and an exclamation mark, and
the lines before it leave nothing open. -/
structure Hashbang (grammar : Grammar) (dialect : String) (text : List Char) (before : List (List Char)) (line : List Char) :
    Prop where
  placed : ∃ after, Text.lines text = before ++ line :: after
  marked : ScriptLine.IsHashbang line
  closed : (grammar.leaves (if dialect = "" then grammar.ownDialect else dialect) .neutral before).carry.isOpen = false

/-- The tokens of a script that are hashbangs, told by its lines. -/
theorem mem_tokens_hashbang_iff (script : grammar = .javascript ∨ grammar = .typescript) {text : List Char} {token : Token} :
    token ∈ grammar.tokens dialect text ∧ token.kind = .preprocessor ↔
      ∃ before line, grammar.Hashbang dialect text before line ∧ token = ⟨.preprocessor, line, Text.extent before⟩ := by
  rw [← Token.isHashbang_iff, ← List.mem_filter, tokens, filter_lines script, mem_hashbangs_iff]
  constructor
  · rintro ⟨before, line, after, whole, marked, closed, rfl⟩
    exact ⟨before, line, ⟨⟨after, whole⟩, marked, closed⟩, by rw [Int.zero_add]⟩
  · rintro ⟨before, line, ⟨⟨after, whole⟩, marked, closed⟩, rfl⟩
    exact ⟨before, line, after, whole, marked, closed, by rw [Int.zero_add]⟩

/-- A line behind the first one does not begin where the document begins. -/
theorem start_of_later {before : List (List Char)} (later : before ≠ []) : (Text.extent before : Int) ≠ 0 := by
  obtain ⟨first, others, rfl⟩ := List.exists_cons_of_ne_nil later
  simp only [Text.extent]
  omega

/-- Without a hashbang behind the first line there is at most one. -/
theorem length_hashbangs_le (script : grammar = .javascript ∨ grammar = .typescript) {text : List Char}
    (first : ∀ before line, grammar.Hashbang dialect text before line → before = []) :
    ((grammar.tokens dialect text).filter Token.isHashbang).length ≤ 1 := by
  -- tokens are disjoint, and two that start with the document and hold text would overlap
  have ordered := ((grammar.tokens_tile dialect text).ordered.filter Token.isHashbang)
  have opening : ∀ token ∈ (grammar.tokens dialect text).filter Token.isHashbang, token.start = 0 ∧ 0 < token.stop := by
    intro token member
    obtain ⟨inside, hashbang⟩ := List.mem_filter.mp member
    obtain ⟨before, line, found, rfl⟩ := (mem_tokens_hashbang_iff script).mp ⟨inside, Token.isHashbang_iff.mp hashbang⟩
    have filled : 2 ≤ line.length := found.marked.length_le
    rw [first before line found]
    refine ⟨rfl, ?_⟩
    simp only [Token.stop, Text.extent]
    omega
  generalize (grammar.tokens dialect text).filter Token.isHashbang = hashbangs at ordered opening ⊢
  rcases hashbangs with _ | ⟨one, _ | ⟨two, others⟩⟩
  · exact Nat.zero_le _
  · exact Nat.le_refl _
  · have apart := (List.pairwise_cons.mp ordered).1 two (List.mem_cons_self ..)
    have early := opening one (List.mem_cons_self ..)
    have late := opening two (List.mem_cons_of_mem _ (List.mem_cons_self ..))
    omega

end Grammar

/-- The hashbangs of a script are its lines that begin like one where nothing is open. So a hashbang
stands nowhere but at the start of the document if and only if no line behind the first one begins
like that. -/
theorem hashbang_first_iff (language : Language) (grammar : Grammar)
    (known : Registry.builtin.grammar? language = some grammar) (script : grammar = .javascript ∨ grammar = .typescript)
    (dialect : String) (text : List Char) :
    ∃ tokens, Registry.builtin.parse language dialect text = .ok tokens ∧
      (∀ token, token ∈ tokens ∧ token.kind = .preprocessor ↔
        ∃ before line, grammar.Hashbang dialect text before line ∧ token = ⟨.preprocessor, line, Text.extent before⟩) ∧
      ((tokens.filter Token.isHashbang).length ≤ 1 ∧ (∀ token ∈ tokens, token.kind = .preprocessor → token.start = 0) ↔
        ∀ before line, grammar.Hashbang dialect text before line → before = []) := by
  refine ⟨grammar.tokens dialect text, by simp only [Registry.parse, known],
    fun token => Grammar.mem_tokens_hashbang_iff script, ?_⟩
  constructor
  · rintro ⟨-, opening⟩ before line found
    obtain ⟨member, hashbang⟩ := (Grammar.mem_tokens_hashbang_iff script).mpr ⟨before, line, found, rfl⟩
    have start := opening _ member hashbang
    by_contra later
    exact Grammar.start_of_later later start
  · intro first
    refine ⟨Grammar.length_hashbangs_le script first, ?_⟩
    intro token member hashbang
    obtain ⟨before, line, found, rfl⟩ := (Grammar.mem_tokens_hashbang_iff script).mp ⟨member, hashbang⟩
    rw [first before line found]
    rfl

/-- The last line looks like a hashbang and lies in a template literal. -/
theorem hashbang_first_iff_template :
    Registry.builtin.grammar? .typescript = some .typescript ∧
      (Grammar.typescript = .javascript ∨ Grammar.typescript = .typescript) ∧
      ∃ tokens, Registry.builtin.parse .typescript "js" "#!n\n`\n#!`".toList = .ok tokens ∧
        (tokens.filter Token.isHashbang).length ≤ 1 ∧ ∀ token ∈ tokens, token.kind = .preprocessor → token.start = 0 := by
  obtain ⟨tokens, parsed, -, opening⟩ := hashbang_first_iff .typescript .typescript rfl (Or.inr rfl) "js" "#!n\n`\n#!`".toList
  refine ⟨rfl, Or.inr rfl, tokens, parsed, opening.mpr ?_⟩
  intro before line found
  obtain ⟨after, whole⟩ := found.placed
  have lines : Text.lines "#!n\n`\n#!`".toList = ["#!n".toList, ['`'], "#!`".toList] := by decide +kernel
  rw [lines] at whole
  rcases before with _ | ⟨first, _ | ⟨second, _ | ⟨third, others⟩⟩⟩
  · rfl
  · cases whole
    exact absurd found.marked (by decide)
  · cases whole
    have opened : (Grammar.typescript.leaves "js" .neutral ["#!n".toList, ['`']]).carry.isOpen = true := by decide +kernel
    exact absurd (found.closed.symm.trans opened) Bool.false_ne_true
  · exact absurd (congrArg List.length whole) (by simp)

/-- The second line of a script is taken for a hashbang. -/
theorem hashbang_behind_first_line :
    ¬ ∀ (language : Language) (grammar : Grammar) (dialect : String) (text : List Char) (tokens : List Token),
      Registry.builtin.grammar? language = some grammar → grammar = .javascript ∨ grammar = .typescript →
        Registry.builtin.parse language dialect text = .ok tokens →
        (tokens.filter Token.isHashbang).length ≤ 1 ∧ ∀ token ∈ tokens, token.kind = .preprocessor → token.start = 0 := by
  intro law
  have parsed : Registry.builtin.parse .javascript "" "a
#!b".toList =
      .ok [⟨.identifier, ['a'], 0⟩, ⟨.preprocessor, "#!b".toList, 2⟩] := by decide +kernel
  have opening := (law .javascript .javascript "" _ _ rfl (Or.inl rfl) parsed).2
  have start := opening ⟨.preprocessor, "#!b".toList, 2⟩ (by decide) rfl
  cases start

end Highlight
