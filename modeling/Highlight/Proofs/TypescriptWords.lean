import Highlight.Document
import Mathlib.Data.List.Basic

/-! TypeScript beside JavaScript. The two differ in words that TypeScript sets apart from names, and
a name decides nothing about the tokens around it that a keyword or a type would decide otherwise.
So the TypeScript reading of a document is its JavaScript reading with these names renamed, whatever
roles they play there. -/

namespace Highlight
open Scan

namespace Scan.Vocabulary

/-- The kind that TypeScript gives to a word, if it sets it apart. -/
def typescriptKind? (word : List Char) : Option TokenKind :=
  if typescriptKeywords.contains (String.ofList word) then some .keyword
  else if typescriptTypes.contains (String.ofList word) then some .type
  else none

theorem typescriptKind?_eq_some {word : List Char} {kind : TokenKind} (found : typescriptKind? word = some kind) :
    String.ofList word ∈ typescriptKeywords ++ typescriptTypes ∧ (kind = .keyword ∨ kind = .type) := by
  unfold typescriptKind? at found
  split at found
  next keyword => exact ⟨List.mem_append_left _ (List.contains_iff_mem.mp keyword), Or.inl (Option.some.inj found).symm⟩
  split at found
  next type => exact ⟨List.mem_append_right _ (List.contains_iff_mem.mp type), Or.inr (Option.some.inj found).symm⟩
  · cases found

/-- No word that TypeScript sets apart is the name of a private member. -/
theorem typescriptKind?_hash (following : List Char) : typescriptKind? ('#' :: following) = none := by
  have letters : ∀ word ∈ typescriptKeywords ++ typescriptTypes, word.toList.head? ≠ some '#' := by decide
  cases found : typescriptKind? ('#' :: following) with
  | none => rfl
  | some kind =>
    refine absurd ?_ (letters _ (typescriptKind?_eq_some found).1)
    rw [String.toList_ofList, List.head?_cons]

end Scan.Vocabulary

namespace TokenKind

def isName : TokenKind → Bool
  | identifier | element | functionOrMethod => true
  | _ => false

/-- What TypeScript makes of a JavaScript token. Only names change, and only if their words are set apart. -/
def typescript (kind : TokenKind) (text : List Char) : TokenKind :=
  if kind.isName then (Vocabulary.typescriptKind? text).getD kind else kind

variable {kind special : TokenKind} {text : List Char}

theorem typescript_of_other (other : kind.isName = false) : kind.typescript text = kind := by
  rw [typescript, other]
  rfl

theorem typescript_of_plain (plain : Vocabulary.typescriptKind? text = none) : kind.typescript text = kind := by
  rw [typescript, plain]
  exact ite_self kind

theorem typescript_of_name (name : kind.isName = true) (found : Vocabulary.typescriptKind? text = some special) :
    kind.typescript text = special := by
  rw [typescript, name, found]
  rfl

end TokenKind

namespace Scan

theorem Vocabulary.kindOf_typescript (name : List Char) :
    typescript.kindOf name = (javascript.kindOf name).typescript name := by
  -- a name that is no word of JavaScript is an identifier there
  change (if (javascriptKeywords ++ typescriptKeywords).contains (String.ofList name) then TokenKind.keyword
      else if typescriptTypes.contains (String.ofList name) then .type else .identifier) =
    (if javascriptKeywords.contains (String.ofList name) then TokenKind.keyword else .identifier).typescript name
  rw [List.contains_append]
  by_cases known : javascriptKeywords.contains (String.ofList name) = true
  · rw [known, if_pos rfl, TokenKind.typescript_of_other rfl]
    rfl
  rw [if_neg known, Bool.eq_false_iff.mpr known, Bool.false_or]
  by_cases keyword : typescriptKeywords.contains (String.ofList name) = true
  · rw [if_pos keyword, TokenKind.typescript_of_name rfl (if_pos keyword)]
  rw [if_neg keyword]
  by_cases type : typescriptTypes.contains (String.ofList name) = true
  · rw [if_pos type, TokenKind.typescript_of_name rfl ((if_neg keyword).trans (if_pos type))]
  · rw [if_neg type, TokenKind.typescript_of_plain ((if_neg keyword).trans (if_neg type))]

def Lexeme.typescript (lexeme : Lexeme) : Lexeme :=
  { lexeme with kind := lexeme.kind.map fun kind => kind.typescript lexeme.text }

/-- A reading as TypeScript takes it, where `c` is the character in front of its body. -/
def Reading.typescript (c : Char) (reading : Reading) : Reading :=
  { reading with kind := reading.kind.map fun kind => kind.typescript (c :: reading.body.taken) }

theorem Reading.typescript_of_other {c : Char} {reading : Reading} (other : ∀ kind ∈ reading.kind, kind.isName = false) :
    reading.typescript c = reading := by
  obtain ⟨kind, body, carry⟩ := reading
  cases kind with
  | none => rfl
  | some kind => rw [typescript, Option.map_some, TokenKind.typescript_of_other (other kind rfl)]

namespace ScriptLine

private theorem operator_kind (first : Char) (following : List Char) :
    ∀ kind ∈ (operator first following).kind, kind.isName = false := by
  unfold operator OperatorTable.read
  split <;> exact fun kind found => Option.some.inj found ▸ rfl

private theorem slash_kind (following : List Char) : ∀ kind ∈ (slash following).kind, kind.isName = false := by
  unfold slash
  split
  · exact operator_kind _ _
  · exact fun kind found => Option.some.inj found ▸ rfl
  · exact fun kind found => Option.some.inj found ▸ rfl
  · dsimp only
    split <;> exact fun kind found => Option.some.inj found ▸ rfl

private theorem hash_typescript (following : List Char) : (hash following).typescript '#' = hash following := by
  unfold hash
  split
  next c others =>
    split
    · rw [Reading.typescript, Option.map_some, TokenKind.typescript_of_plain (Vocabulary.typescriptKind?_hash _)]
    · rfl
  · rfl

/-- The vocabulary decides about the kinds of names and about nothing else. -/
theorem read_typescript (c : Char) (following : List Char) :
    read .typescript c following = (read .javascript c following).typescript c := by
  unfold read
  split
  · rfl
  split
  · simp only [name, Reading.typescript, Option.map_some, Vocabulary.kindOf_typescript]
  split
  · rfl
  split
  · rfl
  split
  · rfl
  split
  · rw [Reading.typescript_of_other (slash_kind following)]
  split
  next hashed => rw [hashed, hash_typescript]
  · rw [Reading.typescript_of_other (operator_kind c following)]

def typescriptScan (scanned : List Lexeme × Carry) : List Lexeme × Carry :=
  (scanned.1.map Lexeme.typescript, scanned.2)

private theorem scan_typescript (carry : Carry) (text : List Char) :
    (reader .typescript).scan carry text = typescriptScan ((reader .javascript).scan carry text) := by
  fun_induction Reader.scan (reader .javascript) carry text with
  | case1 => rw [Reader.scan]; rfl
  | case2 carry c following reading lexemes last same ih =>
    have here : (reader .typescript).read c following = reading.typescript c := read_typescript c following
    have behind : (reader .typescript).scan reading.carry reading.body.rest = (lexemes.map Lexeme.typescript, last) := by
      rw [ih, same]
      rfl
    rw [Reader.scan, here]
    simp only [Reading.typescript, behind]
    rfl

private theorem code_typescript (atStart : Bool) (text : List Char) :
    code .typescript atStart text = typescriptScan (code .javascript atStart text) := by
  unfold code
  split
  · rfl
  · exact scan_typescript _ _

private theorem resume_typescript {kind : TokenKind} (other : kind.isName = false) (tail : Tail) (carry : Carry) :
    resume .typescript kind tail carry = typescriptScan (resume .javascript kind tail carry) := by
  have continued : (⟨some kind, tail.taken⟩ : Lexeme).typescript = ⟨some kind, tail.taken⟩ := by
    rw [Lexeme.typescript, Option.map_some, TokenKind.typescript_of_other other]
  unfold resume
  split
  · rw [typescriptScan, List.map_singleton, continued]
  · rw [code_typescript]
    simp only [typescriptScan, List.map_cons, continued]

private theorem lexemes_typescript (atStart : Bool) (carry : Carry) (line : List Char) :
    lexemes .typescript atStart carry line = typescriptScan (lexemes .javascript atStart carry line) := by
  unfold lexemes
  split
  · exact resume_typescript rfl _ _
  split
  · exact resume_typescript rfl _ _
  · exact code_typescript _ _

end ScriptLine
end Scan

namespace Token

def typescript (token : Token) : Token := { token with kind := token.kind.typescript token.text }

variable {token : Token} {special : TokenKind}

theorem typescript_of_plain (plain : Vocabulary.typescriptKind? token.text = none) : token.typescript = token := by
  rw [typescript, TokenKind.typescript_of_plain plain]

theorem typescript_of_other (other : token.kind.isName = false) : token.typescript = token := by
  rw [typescript, TokenKind.typescript_of_other other]

/-- A name that is set apart is no operator before, and none after. -/
theorem isOperator_typescript (token : Token) (text : String) : token.typescript.isOperator text = token.isOperator text := by
  cases name : token.kind.isName with
  | false => rw [typescript_of_other name]
  | true =>
    cases found : Vocabulary.typescriptKind? token.text with
    | none => rw [typescript_of_plain found]
    | some special =>
      have before : (token.kind == .operator) = false := by
        refine beq_false_of_ne fun same => ?_
        rw [same] at name
        cases name
      have after : (special == .operator) = false := by
        rcases (Vocabulary.typescriptKind?_eq_some found).2 with rfl | rfl <;> rfl
      rw [isOperator, isOperator, typescript, TokenKind.typescript_of_name name found, before, after]

private theorem isAccess_typescript (token : Token) : token.typescript.isAccess = token.isAccess := by
  rw [isAccess, isAccess, isOperator_typescript, isOperator_typescript]

/-- The one keyword that can be called is a word of JavaScript. -/
theorem isSelf_of_special (found : Vocabulary.typescriptKind? token.text = some special) : token.isSelf = false := by
  have plain : Vocabulary.typescriptKind? "this".toList = none := by decide
  unfold isSelf
  cases same : token.text == "this".toList with
  | false => exact Bool.and_false _
  | true =>
    rw [eq_of_beq same, plain] at found
    cases found

private theorem scriptRole_isName (name : token.kind.isName = true) (afterAccess : Bool) (next : Option Token) :
    (token.scriptRole afterAccess next).isName = true := by
  unfold scriptRole
  split
  · rfl
  split
  · rfl
  · exact name

private theorem scriptRole_of_other (other : token.kind ≠ .identifier) (others : token.isSelf = false) (afterAccess : Bool)
    (next : Option Token) : token.scriptRole afterAccess next = token.kind := by
  have identifier : (token.kind == .identifier) = false := beq_false_of_ne other
  rw [scriptRole, identifier, others]
  rfl

private theorem scriptRole_typescript (token : Token) (afterAccess : Bool) (next : Option Token) :
    token.typescript.scriptRole afterAccess (next.map typescript) =
      (token.scriptRole afterAccess next).typescript token.text := by
  have called : (next.map typescript).any (·.isOperator "(") = next.any (·.isOperator "(") := by
    cases next with
    | none => rfl
    | some next => exact next.isOperator_typescript "("
  cases found : Vocabulary.typescriptKind? token.text with
  | none =>
    rw [typescript_of_plain found, TokenKind.typescript_of_plain found, scriptRole, called]
    rfl
  | some special =>
    cases name : token.kind.isName with
    | true =>
      have kind : token.typescript.kind = special := TokenKind.typescript_of_name name found
      have keptText : Vocabulary.typescriptKind? token.typescript.text = some special := found
      have other : token.typescript.kind ≠ .identifier := by
        rw [kind]
        rcases (Vocabulary.typescriptKind?_eq_some found).2 with rfl | rfl <;> decide
      rw [scriptRole_of_other other (isSelf_of_special keptText), kind,
        TokenKind.typescript_of_name (scriptRole_isName name _ _) found]
    | false =>
      have other : token.kind ≠ .identifier := by
        intro same
        rw [same] at name
        cases name
      rw [typescript_of_other name, scriptRole_of_other other (isSelf_of_special found),
        scriptRole_of_other other (isSelf_of_special found), TokenKind.typescript_of_other name]

end Token

/-- Names that are set apart leave the roles of their neighbours as they are. -/
theorem scriptRoles_typescript (afterAccess : Bool) (tokens : List Token) :
    scriptRoles afterAccess (tokens.map Token.typescript) = (scriptRoles afterAccess tokens).map Token.typescript := by
  induction tokens generalizing afterAccess with
  | nil => rfl
  | cons token others ih =>
    rw [List.map_cons, scriptRoles, scriptRoles, List.map_cons, token.isAccess_typescript, ih, List.head?_map,
      token.scriptRole_typescript]
    rfl

private theorem endsInAccess_typescript (before : Bool) (tokens : List Token) :
    endsInAccess before (tokens.map Token.typescript) = endsInAccess before tokens := by
  unfold endsInAccess
  rw [List.getLast?_map]
  cases tokens.getLast? with
  | none => rfl
  | some token => exact token.isAccess_typescript

private theorem place_typescript (offset : Int) (lexemes : List Lexeme) :
    place offset (lexemes.map Lexeme.typescript) = (place offset lexemes).map Token.typescript := by
  induction lexemes generalizing offset with
  | nil => rfl
  | cons lexeme others ih =>
    obtain ⟨kind, text⟩ := lexeme
    cases kind with
    | none => exact ih (offset + text.length)
    | some kind => exact congrArg (List.cons _) (ih (offset + text.length))

namespace Grammar

theorem scriptLine_typescript (state : ScriptState) (line : List Char) :
    scriptLine .typescript state line =
      ((scriptLine .javascript state line).1.map Token.typescript, (scriptLine .javascript state line).2) := by
  simp only [scriptLine, ScriptLine.lexemes_typescript, ScriptLine.typescriptScan, place_typescript,
    scriptRoles_typescript, endsInAccess_typescript]

/-- Both script grammars read a line by the vocabulary of the dialect alone. -/
theorem lines_of_vocabulary {first second : Grammar} (script : first = .javascript ∨ first = .typescript)
    (other : second = .javascript ∨ second = .typescript) {dialect asked : String}
    (same : vocabulary dialect = vocabulary asked) (state : ScriptState) (offset : Int) (lines : List (List Char)) :
    first.lines dialect state offset lines = second.lines asked state offset lines := by
  have line : first.line dialect = second.line asked := by
    rcases script with rfl | rfl <;> rcases other with rfl | rfl <;> (unfold Grammar.line; rw [same])
  induction lines generalizing state offset with
  | nil => rfl
  | cons here behind ih => rw [lines_cons, lines_cons, line, ih]

private theorem lines_typescript {asked plain : String} (typescript : vocabulary asked = .typescript)
    (javascript : vocabulary plain = .javascript) (state : ScriptState) (offset : Int) (lines : List (List Char)) :
    Grammar.typescript.lines asked state offset lines =
      (Grammar.javascript.lines plain state offset lines).map Token.typescript := by
  have line : ∀ state line, Grammar.typescript.line asked state line =
      ((Grammar.javascript.line plain state line).1.map Token.typescript, (Grammar.javascript.line plain state line).2) := by
    intro state line
    simp only [Grammar.line, typescript, javascript, scriptLine_typescript]
  induction lines generalizing state offset with
  | nil => rfl
  | cons here behind ih =>
    simp only [lines_cons, line, ih, List.map_append, List.map_map]
    rfl

private theorem isTypescript_iff (dialect : String) :
    isTypescript dialect = true ↔ dialect.toLower = "ts" ∨ dialect.toLower = "typescript" := by
  have lowered : String.ofList (dialect.toList.map Char.toLower) = dialect.toLower := by
    rw [← String.toList_map, String.ofList_toList]
    rfl
  rw [isTypescript, lowered, Bool.or_eq_true, beq_iff_eq, beq_iff_eq]

end Grammar

/-- TypeScript extends JavaScript by words and by nothing else. It is the dialect of JavaScript that
goes by either of its names, and its tokens are those of JavaScript but for names that it sets apart. -/
theorem typescript_renames_names (text : List Char) :
    (∀ dialect : String, dialect.toLower = "ts" ∨ dialect.toLower = "typescript" →
      Registry.builtin.parse .javascript dialect text = Registry.builtin.parse .typescript "" text) ∧
    ∃ tokens, Registry.builtin.parse .javascript "" text = .ok tokens ∧
      Registry.builtin.parse .typescript "" text = .ok (tokens.map Token.typescript) := by
  have own : Grammar.vocabulary "ts" = .typescript := rfl
  refine ⟨fun dialect named => ?_, Grammar.javascript.tokens "" text, rfl, ?_⟩
  · have asked : Grammar.isTypescript dialect = true := (Grammar.isTypescript_iff dialect).mpr named
    have given : dialect ≠ "" := by
      rintro rfl
      cases asked
    have words : Grammar.vocabulary dialect = Grammar.vocabulary "ts" := by rw [Grammar.vocabulary, if_pos asked, own]
    have read : Grammar.javascript.tokens dialect text = Grammar.typescript.tokens "" text := by
      rw [Grammar.tokens, if_neg given]
      exact Grammar.lines_of_vocabulary (Or.inl rfl) (Or.inr rfl) words _ _ _
    exact congrArg Except.ok read
  · exact congrArg Except.ok (Grammar.lines_typescript own rfl _ _ _)

theorem typescript_renames_names_called :
    ("TypeScript".toLower = "ts" ∨ "TypeScript".toLower = "typescript") ∧
      Registry.builtin.parse .javascript "TypeScript" "o?.\n/* */ type(#as, any)".toList =
        Registry.builtin.parse .typescript "" "o?.\n/* */ type(#as, any)".toList ∧
      ∃ tokens, Registry.builtin.parse .javascript "" "o?.\n/* */ type(#as, any)".toList = .ok tokens ∧
        Registry.builtin.parse .typescript "" "o?.\n/* */ type(#as, any)".toList = .ok (tokens.map Token.typescript) := by
  have named : "TypeScript".toLower = "ts" ∨ "TypeScript".toLower = "typescript" :=
    (Grammar.isTypescript_iff "TypeScript").mp (by decide)
  obtain ⟨alike, renamed⟩ := typescript_renames_names "o?.\n/* */ type(#as, any)".toList
  exact ⟨named, alike "TypeScript" named, renamed⟩

end Highlight
