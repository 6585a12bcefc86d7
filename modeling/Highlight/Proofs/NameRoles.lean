import Highlight.Proofs.LineContinuation
import Mathlib.Logic.Basic

/-! The roles of names, told over a whole document. A name is called by what follows on its own line, and
it is an element by what stands before it, however many lines lie between. Whether a member access came
last is handed from line to line, so giving roles line by line comes to one pass over all tokens. -/

namespace Highlight
open Scan

namespace Text

def lineAt (text : List Char) (offset : Int) : Nat := (text.take offset.toNat).count '\n'

private theorem lineAt_inside {line : List Char} (oneLine : '\n' ∉ line) (text : List Char) {offset : Int}
    (inside : offset ≤ line.length) :
    lineAt (line ++ text) offset = 0 := by
  rw [lineAt, List.take_append_of_le_length (by omega)]
  exact List.count_eq_zero.mpr fun member => oneLine (List.mem_of_mem_take member)

private theorem lineAt_behind {line : List Char} (oneLine : '\n' ∉ line) (text : List Char) {offset : Int}
    (further : 0 ≤ offset) :
    lineAt (line ++ '\n' :: text) (line.length + 1 + offset) = lineAt text offset + 1 := by
  have place : ((line.length : Int) + 1 + offset).toNat = line.length + (offset.toNat + 1) := by omega
  rw [lineAt, place, List.take_length_add_append, List.take_succ_cons, List.count_append, List.count_cons_self,
    List.count_eq_zero.mpr oneLine, Nat.zero_add, lineAt]

private theorem lineAt_first {first : List Char} (oneLine : '\n' ∉ first) (others : List (List Char)) {offset : Int}
    (inside : offset ≤ first.length) : lineAt (unlines (first :: others)) offset = 0 := by
  cases others with
  | nil =>
    have alone := lineAt_inside oneLine [] inside
    rwa [List.append_nil] at alone
  | cons next more => exact lineAt_inside oneLine _ inside

end Text

namespace Token

variable {token : Token} {afterAccess : Bool} {next : Option Token}

private theorem scriptRole_called_iff (unplayed : token.kind ≠ .functionOrMethod) :
    token.scriptRole afterAccess next = .functionOrMethod ↔
      (token.kind = .identifier ∨ token.isSelf = true) ∧ ∃ opening, next = some opening ∧ opening.isOperator "(" = true := by
  have called : ((token.kind == .identifier || token.isSelf) && next.any (·.isOperator "(")) = true ↔
      (token.kind = .identifier ∨ token.isSelf = true) ∧ ∃ opening, next = some opening ∧ opening.isOperator "(" = true := by
    rw [Bool.and_eq_true, Bool.or_eq_true, beq_iff_eq, Option.any_eq_true]
  rw [← called, scriptRole]
  split
  next found => exact iff_of_true rfl found
  next missed =>
    refine iff_of_false ?_ missed
    split
    · nofun
    · exact unplayed

private theorem scriptRole_element_iff (unplayed : token.kind ≠ .element) :
    token.scriptRole afterAccess next = .element ↔
      token.kind = .identifier ∧ token.scriptRole afterAccess next ≠ .functionOrMethod ∧ afterAccess = true := by
  unfold scriptRole
  split
  · exact iff_of_false nofun fun accessed => accessed.2.1 rfl
  split
  next found =>
    obtain ⟨identifier, access⟩ := Bool.and_eq_true_iff.mp found
    exact iff_of_true rfl ⟨eq_of_beq identifier, nofun, access⟩
  next missed =>
    refine iff_of_false unplayed fun accessed => missed ?_
    rw [accessed.1, accessed.2.2]
    rfl

private theorem scriptRole_other (uncalled : token.scriptRole afterAccess next ≠ .functionOrMethod)
    (bare : token.scriptRole afterAccess next ≠ .element) : token.scriptRole afterAccess next = token.kind := by
  unfold scriptRole at uncalled bare ⊢
  split at uncalled
  · exact absurd rfl uncalled
  next missed =>
    rw [if_neg missed] at bare ⊢
    split at bare
    · exact absurd rfl bare
    next unaccessed => rw [if_neg unaccessed]

end Token

/-- The roles of tokens that are in lines, where `line` is the number of the line of each. -/
def rolesIn (line : Token → Nat) (afterAccess : Bool) : List Token → List Token
  | [] => []
  | token :: others =>
    { token with kind := token.scriptRole afterAccess (others.head?.filter fun next => line next == line token) } ::
      rolesIn line token.isAccess others

section
variable {line : Token → Nat} {afterAccess : Bool} {tokens before after : List Token} {token : Token}

private theorem rolesIn_congr {other : Token → Nat} (same : ∀ token ∈ tokens, line token = other token + 1)
    (afterAccess : Bool) :
    rolesIn line afterAccess tokens = rolesIn other afterAccess tokens := by
  induction tokens generalizing afterAccess with
  | nil => rfl
  | cons token others ih =>
    obtain ⟨here, later⟩ := List.forall_mem_cons.mp same
    have next : (others.head?.filter fun next => line next == line token) =
        others.head?.filter fun next => other next == other token := by
      cases others with
      | nil => rfl
      | cons next more =>
        simp only [List.head?_cons, Option.filter_some, here, later next (List.mem_cons_self ..), Nat.add_right_cancel_iff, beq_iff_eq]
    rw [rolesIn, rolesIn, next, ih later]

/-- Tokens of one line, with tokens of other lines behind them, play the roles they play alone. -/
theorem rolesIn_append {number : Nat} (here : ∀ token ∈ before, line token = number) (behind : ∀ token ∈ after, line token ≠ number)
    (afterAccess : Bool) :
    rolesIn line afterAccess (before ++ after) =
      scriptRoles afterAccess before ++ rolesIn line (endsInAccess afterAccess before) after := by
  induction before generalizing afterAccess with
  | nil => rfl
  | cons token others ih =>
    obtain ⟨first, more⟩ := List.forall_mem_cons.mp here
    have next : ((others ++ after).head?.filter fun next => line next == line token) = others.head? := by
      cases others with
      | cons second _ => simp [first, more second (List.mem_cons_self ..)]
      | nil =>
        cases after with
        | nil => rfl
        | cons second _ => simp [first, behind second (List.mem_cons_self ..)]
    rw [List.cons_append, rolesIn, next, ih more, scriptRoles, endsInAccess_cons, List.cons_append]

private theorem getElem?_rolesIn (split : tokens = before ++ token :: after) :
    (rolesIn line afterAccess tokens)[before.length]? = some { token with
      kind := token.scriptRole (endsInAccess afterAccess before) (after.head?.filter fun next => line next == line token) } := by
  subst split
  induction before generalizing afterAccess with
  | nil => rfl
  | cons first before ih =>
    rw [List.cons_append, rolesIn, List.length_cons, List.getElem?_cons_succ, ih, endsInAccess_cons]

private theorem endsInAccess_iff :
    endsInAccess false tokens = true ↔ ∃ previous, tokens.getLast? = some previous ∧ previous.isAccess = true := by
  unfold endsInAccess
  cases tokens.getLast? with
  | none => simp
  | some last => simp

private theorem length_rolesIn : (rolesIn line afterAccess tokens).length = tokens.length := by
  induction tokens generalizing afterAccess with
  | nil => rfl
  | cons token others ih => rw [rolesIn, List.length_cons, List.length_cons, ih]

/-- Roles do not depend on where a line stands. -/
theorem map_shift_scriptRoles (distance : Int) :
    (scriptRoles afterAccess tokens).map (Token.shift distance) = scriptRoles afterAccess (tokens.map (Token.shift distance)) := by
  induction tokens generalizing afterAccess with
  | nil => rfl
  | cons token others ih =>
    rw [scriptRoles, List.map_cons, ih, List.map_cons, scriptRoles, List.head?_map]
    cases others.head? <;> rfl

private theorem endsInAccess_shift (distance : Int) :
    endsInAccess afterAccess (tokens.map (Token.shift distance)) = endsInAccess afterAccess tokens := by
  rw [endsInAccess, endsInAccess, List.getLast?_map]
  cases tokens.getLast? <;> rfl

end

namespace Scan

private theorem lineTokens_cons (words : Vocabulary) (carry : Carry) (offset : Nat) (first : List Char)
    (others : List (List Char)) :
    lineTokens words carry offset (first :: others) =
      place offset (ScriptLine.lexemes words true carry first).1 ++
        lineTokens words (ScriptLine.lexemes words true carry first).2 (offset + first.length + 1) others := rfl

private theorem le_start_of_mem_lineTokens {words : Vocabulary} {carry : Carry} {offset : Nat}
    {lines : List (List Char)} {token : Token}
    (member : token ∈ lineTokens words carry offset lines) : offset ≤ token.start := by
  induction lines generalizing carry offset with
  | nil => cases member
  | cons first others ih =>
    rcases List.mem_append.mp member with here | behind
    · exact (place_bounds here).1
    · have later := ih behind
      omega

/-- Where a line starts there may also be a hashbang. -/
theorem lineTokens_isRead {words : Vocabulary} {carry : Carry} {offset : Nat} {lines : List (List Char)} {token : Token}
    (member : token ∈ lineTokens words carry offset lines) : token.kind.isRead = true ∨ token.kind = .preprocessor := by
  induction lines generalizing carry offset with
  | nil => cases member
  | cons first others ih =>
    rw [lineTokens_cons] at member
    rcases List.mem_append.mp member with here | behind
    · obtain ⟨lexeme, inside, kind⟩ := exists_kind_place.mp ⟨token, here, rfl⟩
      by_cases hashbang : carry.isOpen = false ∧ ScriptLine.IsHashbang first
      · rw [ScriptLine.lexemes_hashbang words hashbang.1 hashbang.2] at inside
        rw [List.mem_singleton.mp inside] at kind
        exact Or.inr (Option.some.inj kind).symm
      · exact Or.inl (ScriptLine.lexemes_isRead words hashbang lexeme inside _ kind)
    · exact ih behind

end Scan

namespace Grammar

variable {grammar : Grammar} {dialect : String}

/-- Giving roles line by line comes to one pass over the tokens of all lines. -/
theorem lines_eq_rolesIn (script : grammar = .javascript ∨ grammar = .typescript) {state : ScriptState} (single : state.carry.Single)
    (offset : Nat) {lines : List (List Char)} (clean : ∀ line ∈ lines, '\n' ∉ line) :
    grammar.lines dialect state offset lines =
      rolesIn (fun token => Text.lineAt (Text.unlines lines) (token.start - offset)) state.inElement
        (lineTokens (vocabulary dialect) state.carry offset lines) := by
  induction lines generalizing state offset with
  | nil => rfl
  | cons first others ih =>
    obtain ⟨oneLine, clean⟩ := List.forall_mem_cons.mp clean
    have read := ScriptLine.lexemes_scanned (vocabulary dialect) true single first
    have parsed : grammar.line dialect state first =
        (scriptRoles state.inElement (place 0 (ScriptLine.lexemes (vocabulary dialect) true state.carry first).1),
          ⟨(ScriptLine.lexemes (vocabulary dialect) true state.carry first).2,
            endsInAccess state.inElement (place 0 (ScriptLine.lexemes (vocabulary dialect) true state.carry first).1)⟩) := by
      rcases script with rfl | rfl <;> rfl
    rw [lines_cons, parsed, lineTokens_cons]
    generalize ScriptLine.lexemes (vocabulary dialect) true state.carry first = found at read ⊢
    obtain ⟨lexemes, carry⟩ := found
    have here : ∀ token ∈ place offset lexemes, Text.lineAt (Text.unlines (first :: others)) (token.start - offset) = 0 := by
      intro token member
      have bounds := place_bounds member
      rw [read.whole, Token.stop] at bounds
      exact Text.lineAt_first oneLine others (by omega)
    have behind : ∀ token ∈ lineTokens (vocabulary dialect) carry (offset + first.length + 1) others,
        Text.lineAt (Text.unlines (first :: others)) (token.start - offset) =
          Text.lineAt (Text.unlines others) (token.start - (offset + first.length + 1 : Nat)) + 1 := by
      intro token member
      have further := le_start_of_mem_lineTokens member
      have distance : token.start - offset = first.length + 1 + (token.start - (offset + first.length + 1 : Nat)) := by omega
      cases others with
      | nil => cases member
      | cons next more =>
        rw [distance]
        exact Text.lineAt_behind oneLine _ (by omega)
    have moved : (place 0 lexemes).map (Token.shift offset) = place offset lexemes := by rw [map_shift_place, Int.zero_add]
    have later := @ih ⟨carry, endsInAccess state.inElement (place 0 lexemes)⟩ read.single (offset + first.length + 1) clean
    rw [← rolesIn_congr behind] at later
    rw [rolesIn_append here fun token member => ne_of_eq_of_ne (behind token member) (Nat.succ_ne_zero _), ← moved,
      endsInAccess_shift, map_shift_scriptRoles]
    exact congrArg _ later

/-- The tokens of a script before they get their roles: every line is scanned after what the line before
left open. -/
def scanned (grammar : Grammar) (dialect : String) (text : List Char) : List Token :=
  lineTokens (vocabulary (if dialect = "" then grammar.ownDialect else dialect)) .neutral 0 (Text.lines text)

private theorem tokens_eq_rolesIn (script : grammar = .javascript ∨ grammar = .typescript) (text : List Char) :
    grammar.tokens dialect text = rolesIn (fun token => Text.lineAt text token.start) false (grammar.scanned dialect text) := by
  have clean : ∀ line ∈ Text.lines text, '\n' ∉ line := fun _ member => Text.newline_not_mem_lines member
  have roles := @lines_eq_rolesIn grammar (if dialect = "" then grammar.ownDialect else dialect) script .neutral
    Carry.single_neutral 0 (Text.lines text) clean
  rw [Text.unlines_lines] at roles
  simp only [Int.sub_zero, Int.natCast_zero] at roles
  exact roles

end Grammar

/-- The kind that a scanned token has in the end, told by the tokens before and after it: a name is called
where an opening parenthesis comes next on its line, an identifier that is not called is an element
where a member access came last, and any other token is what it was scanned as. -/
structure Token.PlaysAmong (text : List Char) (before : List Token) (token : Token) (after : List Token) (kind : TokenKind) :
    Prop where
  called : kind = .functionOrMethod ↔
    (token.kind = .identifier ∨ token.isSelf = true) ∧
      ∃ next, after.head? = some next ∧ Text.lineAt text next.start = Text.lineAt text token.start ∧ next.isOperator "(" = true
  accessed : kind = .element ↔
    token.kind = .identifier ∧ kind ≠ .functionOrMethod ∧ ∃ previous, before.getLast? = some previous ∧ previous.isAccess = true
  other : kind ≠ .functionOrMethod → kind ≠ .element → kind = token.kind

/-- The tokens of a script are the scanned ones in their roles, and what role one plays is decided by the
token after it on its line and by the token before it in the whole text. -/
theorem names_play_roles (language : Language) (grammar : Grammar) (known : Registry.builtin.grammar? language = some grammar)
    (script : grammar = .javascript ∨ grammar = .typescript) (dialect : String) (text : List Char) :
    ∃ tokens, Registry.builtin.parse language dialect text = .ok tokens ∧
      tokens.length = (grammar.scanned dialect text).length ∧
      ∀ before token after, grammar.scanned dialect text = before ++ token :: after →
        ∃ kind, tokens[before.length]? = some { token with kind := kind } ∧ token.PlaysAmong text before after kind := by
  refine ⟨grammar.tokens dialect text, by simp only [Registry.parse, known], ?_, ?_⟩
  · rw [Grammar.tokens_eq_rolesIn script, length_rolesIn]
  intro before token after split
  have member : token ∈ grammar.scanned dialect text := split ▸ List.mem_append_right before (List.mem_cons_self ..)
  have scanned : token.kind ≠ .functionOrMethod ∧ token.kind ≠ .element := by
    rcases lineTokens_isRead member with read | hashbang
    · have other : ∀ kind : TokenKind, kind.isRead = false → token.kind ≠ kind :=
        fun kind unread same => Bool.false_ne_true (unread.symm.trans (same ▸ read))
      exact ⟨other _ rfl, other _ rfl⟩
    · rw [hashbang]
      constructor <;> intro same <;> cases same
  rw [Grammar.tokens_eq_rolesIn script]
  refine ⟨_, getElem?_rolesIn split, ?_, ?_, Token.scriptRole_other⟩
  · rw [Token.scriptRole_called_iff scanned.1]
    simp only [Option.filter_eq_some_iff, beq_iff_eq, and_assoc]
  · rw [Token.scriptRole_element_iff scanned.2, endsInAccess_iff]

/-- A name is an element over an empty line, and what opens on the next line does not call it. -/
theorem names_play_roles_over_lines :
    Registry.builtin.grammar? .typescript = some .typescript ∧
      (Grammar.typescript = .javascript ∨ Grammar.typescript = .typescript) ∧
      ∃ tokens, Registry.builtin.parse .typescript "js" "a?.\n\n b\n(c".toList = .ok tokens ∧
        tokens[2]? = some ⟨.element, ['b'], 6⟩ := by
  obtain ⟨tokens, parsed, -, plays⟩ :=
    names_play_roles .typescript .typescript rfl (Or.inr rfl) "js" "a?.\n\n b\n(c".toList
  have scanned : Grammar.typescript.scanned "js" "a?.\n\n b\n(c".toList =
      [⟨.identifier, ['a'], 0⟩, ⟨.operator, "?.".toList, 1⟩] ++ ⟨.identifier, ['b'], 6⟩ ::
        [⟨.operator, ['('], 8⟩, ⟨.identifier, ['c'], 9⟩] := by decide +kernel
  obtain ⟨kind, found, roles⟩ := plays _ _ _ scanned
  have uncalled : kind ≠ .functionOrMethod := by
    intro called
    obtain ⟨-, next, same, line, -⟩ := roles.called.mp called
    obtain rfl := Option.some.inj same
    exact absurd line (by decide)
  rw [roles.accessed.mpr ⟨rfl, uncalled, _, rfl, rfl⟩] at found
  exact ⟨rfl, Or.inr rfl, tokens, parsed, found⟩

end Highlight
