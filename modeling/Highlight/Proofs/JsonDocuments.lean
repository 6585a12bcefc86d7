import Highlight.Proofs.JsonReading

/-! Every JSON document is read without an error. A document is a value, each of its strings and
numbers in one of its spellings, with blanks and line feeds anywhere between tokens. Only a name
and its colon must share a line, since a line is read without looking at the next one. -/

namespace Highlight
open Scan

namespace JsonText

structure StringSpelling where
  body : List Char
  spelled : Body Unescaped body

structure NumberSpelling where
  text : List Char
  spelled : Number text

inductive Tree
  | null
  | bool (value : Bool)
  | number (spelling : NumberSpelling)
  | string (spelling : StringSpelling)
  | array (items : List Tree)
  | object (members : List (StringSpelling × Tree))

/-- A token as a document has it, wherever it stands there. -/
structure Written where
  kind : TokenKind
  text : List Char

def StringSpelling.written (spelling : StringSpelling) (kind : TokenKind) : Written :=
  ⟨kind, '"' :: (spelling.body ++ ['"'])⟩

def writtenMark (c : Char) : Written := ⟨.operator, [c]⟩

def Tree.written : Tree → List Written
  | null => [⟨.keyword, "null".toList⟩]
  | bool true => [⟨.keyword, "true".toList⟩]
  | bool false => [⟨.keyword, "false".toList⟩]
  | number spelling => [⟨.number, spelling.text⟩]
  | string spelling => [spelling.written .string]
  | array items => writtenMark '[' :: ([writtenMark ','].intercalate (items.map written) ++ [writtenMark ']'])
  | object members =>
    writtenMark '\x7b' :: ([writtenMark ','].intercalate
      (members.map fun member => member.1.written .jsonKey :: writtenMark ':' :: member.2.written) ++ [writtenMark '\x7d'])
termination_by tree => sizeOf tree
decreasing_by
  all_goals simp_wf
  · have := List.sizeOf_lt_of_mem ‹_ ∈ items›
    omega
  · next inside =>
      have := List.sizeOf_lt_of_mem inside
      cases member
      simp at this ⊢
      omega

def spacedText (spaced : List (Written × List Char)) : List Char :=
  spaced.flatMap fun pair => pair.1.text ++ pair.2

/-- The tokens at their places in a text that begins at an offset. -/
def spacedTokens (offset : Int) : List (Written × List Char) → List Token
  | [] => []
  | (token, gap) :: others =>
    ⟨token.kind, token.text, offset⟩ :: spacedTokens (offset + token.text.length + gap.length) others

/-- Blanks and line feeds, but no line feed behind a name. -/
structure Gap (token : Written) (gap : List Char) : Prop where
  spaced : ∀ c ∈ gap, Blank c ∨ c = '\n'
  onLine : token.kind = .jsonKey → '\n' ∉ gap

/-- A document that spells a value, with a gap before it and behind each of its tokens. -/
structure Serialization (tree : Tree) where
  lead : List Char
  spaced : List (Written × List Char)
  written : spaced.map Prod.fst = tree.written
  leadSpaced : ∀ c ∈ lead, Blank c ∨ c = '\n'
  gaps : ∀ pair ∈ spaced, Gap pair.1 pair.2

namespace Serialization
variable {tree : Tree} (document : Serialization tree)

def text : List Char := document.lead ++ spacedText document.spaced

def tokens : List Token := spacedTokens document.lead.length document.spaced

end Serialization

def closers : List Char := [',', ']', '\x7d']

def Closed (tokens : List Written) : Prop := ∀ next ∈ tokens.head?, ∃ c ∈ closers, next = writtenMark c

/-- Tokens that are told apart where they meet: a name stands before a colon, and any other token
that is not a mark stands before one that closes it. -/
inductive Legible : List Written → Prop
  | done : Legible []
  | mark {c : Char} {others : List Written} (known : c ∈ marks) (later : Legible others) :
      Legible (writtenMark c :: others)
  | name (spelling : StringSpelling) {others : List Written} (later : Legible others) :
      Legible (spelling.written .jsonKey :: writtenMark ':' :: others)
  | value {kind : TokenKind} {text : List Char} {others : List Written} (lexical : Lexical Unescaped kind text)
      (closed : Closed others) (later : Legible others) : Legible (⟨kind, text⟩ :: others)

private theorem closed_nil : Closed [] := fun _ none => nomatch none

private theorem closed_cons {c : Char} (closer : c ∈ closers) (others : List Written) : Closed
    (writtenMark c :: others) := by
  intro next head
  cases head
  exact ⟨c, closer, rfl⟩

theorem Closed.head {spaced : List (Written × List Char)} (closed : Closed (spaced.map Prod.fst)) :
    ∀ c ∈ (spacedText spaced).head?, c ∈ closers := by
  cases spaced with
  | nil => exact fun _ none => nomatch none
  | cons pair others =>
    obtain ⟨closer, known, same⟩ := closed pair.1 rfl
    intro c head
    rw [spacedText, List.flatMap_cons, same] at head
    cases head
    exact known

private theorem marks_of_closers {c : Char} (closer : c ∈ closers) : c ∈ marks := by
  have each : ∀ c ∈ closers, c ∈ marks := by simp [closers, marks]
  exact each c closer

/-- Parts that are legible before anything that closes them are so with commas between them. -/
theorem Legible.separated {parts : List (List Written)} {c : Char} {after : List Written}
    (each : ∀ part ∈ parts, ∀ others, Closed others → Legible others → Legible (part ++ others))
    (closer : c ∈ closers) (later : Legible after) :
    Legible ([writtenMark ','].intercalate parts ++ writtenMark c :: after) := by
  have ended : Legible (writtenMark c :: after) := .mark (marks_of_closers closer) later
  induction parts with
  | nil => exact ended
  | cons part others ih =>
    obtain ⟨here, rest⟩ := List.forall_mem_cons.mp each
    cases others with
    | nil =>
      rw [List.intercalate_singleton]
      exact here _ (closed_cons closer after) ended
    | cons next more =>
      rw [List.intercalate_cons_cons, List.append_assoc, List.append_assoc]
      exact here _ (closed_cons (List.mem_cons_self ..) _) (.mark (by decide) (ih rest))

theorem Tree.legible (tree : Tree) {after : List Written} (closed : Closed after) (later : Legible after) :
    Legible (tree.written ++ after) := by
  induction tree using Tree.written.induct generalizing after with
  | case1 | case2 | case3 =>
    have known : ∀ text ∈ names, Lexical Unescaped .keyword text := fun _ => .name
    rw [Tree.written]
    exact .value (known _ (by decide)) closed later
  | case4 spelling =>
    rw [Tree.written]
    exact .value (.number spelling.spelled) closed later
  | case5 spelling =>
    rw [Tree.written]
    exact .value (.string spelling.spelled) closed later
  | case6 items ih =>
    rw [Tree.written, List.cons_append, List.append_assoc]
    refine .mark (by decide) (.separated ?_ (by decide) later)
    intro part member others closed later
    obtain ⟨item, inside, rfl⟩ := List.mem_map.mp member
    exact ih item inside closed later
  | case7 members ih =>
    rw [Tree.written, List.cons_append, List.append_assoc]
    refine .mark (by decide) (.separated ?_ (by decide) later)
    intro part member others closed later
    obtain ⟨field, inside, rfl⟩ := List.mem_map.mp member
    exact .name field.1 (ih field inside closed later)

end JsonText

namespace Grammar
open JsonText

variable {dialect : String} {offset : Int} {text : List Char}

private theorem ends_gap {gap : List Char} (spaced : ∀ c ∈ gap, Blank c ∨ c = '\n')
    (behind : ∀ c ∈ text.head?, c ∈ closers) :
    Ends (gap ++ text) := by
  intro c head
  cases gap with
  | nil =>
    have each : ∀ c ∈ closers, c.isAlphanum = false ∧ c ≠ '.' := by simp [closers]
    exact each c (behind c head)
  | cons d gap =>
    cases head
    rcases spaced c (List.mem_cons_self ..) with (rfl | rfl | rfl) | rfl <;> decide

private theorem colonFirst_gap {gap : List Char} (blanks : ∀ c ∈ gap, Blank c) :
    colonFirst (firstLine (gap ++ text)) = colonFirst (firstLine text) := by
  induction gap with
  | nil => rfl
  | cons c gap ih =>
    obtain ⟨here, others⟩ := List.forall_mem_cons.mp blanks
    have whole : firstLine (c :: (gap ++ text)) = c :: firstLine (gap ++ text) := firstLine_append here.oneLine _
    rw [List.cons_append, whole, colonFirst_space here.isSpace, ih others]

private theorem colonFirst_colon (colon : text.head? = some ':') : colonFirst (firstLine text) = true := by
  obtain ⟨rest, rfl⟩ := List.head?_eq_some_iff.mp colon
  have oneLine : '\n' ∉ [':'] := by decide
  have whole : firstLine (':' :: rest) = ':' :: firstLine rest := firstLine_append oneLine rest
  rw [whole, colonFirst_mark (by decide)]
  rfl

private theorem colonFirst_closed {gap : List Char} (spaced : ∀ c ∈ gap, Blank c ∨ c = '\n')
    (behind : ∀ c ∈ text.head?, c ∈ closers) : colonFirst (firstLine (gap ++ text)) = false := by
  have empty : colonFirst [] = false := by
    rw [colonFirst, JsonLine.lexemes_nil]
    rfl
  induction gap with
  | nil =>
    cases text with
    | nil => exact empty
    | cons c rest =>
      have closer := behind c rfl
      have each : ∀ c ∈ closers, '\n' ∉ [c] ∧ (c == ':') = false := by simp [closers]
      have whole : firstLine (c :: rest) = c :: firstLine rest := firstLine_append (each c closer).1 rest
      rw [List.nil_append, whole, colonFirst_mark (marks_of_closers closer), (each c closer).2]
  | cons c gap ih =>
    obtain ⟨here, others⟩ := List.forall_mem_cons.mp spaced
    rcases here with blank | rfl
    · have step : colonFirst (firstLine ([c] ++ (gap ++ text))) = _ := colonFirst_gap (List.forall_mem_singleton.mpr blank)
      rw [List.cons_append, ← List.singleton_append, step, ih others]
    · rw [List.cons_append, firstLine_newline, empty]

/-- A token and the gap behind it are read, whatever follows. -/
theorem jsonTokens_pair {kind role : TokenKind} {piece gap : List Char} (lexical : Lexical Unescaped kind piece)
    (spaced : ∀ c ∈ gap, Blank c ∨ c = '\n') (ends : kind = .number ∨ kind = .keyword → Ends (gap ++ text))
    (plays : (if kind == .string && colonFirst (firstLine (gap ++ text)) then .jsonKey else kind) = role) :
    jsonTokens dialect offset (piece ++ gap ++ text) =
      ⟨role, piece, offset⟩ :: jsonTokens dialect (offset + piece.length + gap.length) text := by
  rw [List.append_assoc, jsonTokens_token lexical ends, jsonTokens_gap spaced, plays]

private theorem jsonTokens_mark {c : Char} (known : c ∈ marks) {gap : List Char} (spaced : ∀ c ∈ gap, Blank c ∨ c = '\n') :
    jsonTokens dialect offset ([c] ++ gap ++ text) =
      ⟨.operator, [c], offset⟩ :: jsonTokens dialect (offset + [c].length + gap.length) text := by
  refine jsonTokens_pair (.mark known) spaced ?_ rfl
  rintro (impossible | impossible) <;> cases impossible

private theorem jsonTokens_name (spelling : StringSpelling) {gap : List Char} (blanks : ∀ c ∈ gap, Blank c)
    (colon : text.head? = some ':') :
    jsonTokens dialect offset ((spelling.written .jsonKey).text ++ gap ++ text) =
      ⟨.jsonKey, (spelling.written .jsonKey).text, offset⟩ ::
        jsonTokens dialect (offset + (spelling.written .jsonKey).text.length + gap.length) text := by
  refine jsonTokens_pair (.string spelling.spelled) (fun c member => Or.inl (blanks c member)) ?_ ?_
  · rintro (impossible | impossible) <;> cases impossible
  · rw [colonFirst_gap blanks, colonFirst_colon colon]
    rfl

private theorem jsonTokens_value {kind : TokenKind} {piece gap : List Char} (lexical : Lexical Unescaped kind piece)
    (spaced : ∀ c ∈ gap, Blank c ∨ c = '\n') (behind : ∀ c ∈ text.head?, c ∈ closers) :
    jsonTokens dialect offset (piece ++ gap ++ text) =
      ⟨kind, piece, offset⟩ :: jsonTokens dialect (offset + piece.length + gap.length) text := by
  refine jsonTokens_pair lexical spaced (fun _ => ends_gap spaced behind) ?_
  rw [colonFirst_closed spaced behind, Bool.and_false]
  rfl

private theorem jsonTokens_spaced {tokens : List Written} (legible : Legible tokens) {spaced : List (Written × List Char)}
    (same : spaced.map Prod.fst = tokens) (gaps : ∀ pair ∈ spaced, Gap pair.1 pair.2) :
    jsonTokens dialect offset (spacedText spaced) = spacedTokens offset spaced := by
  induction legible generalizing spaced offset with
  | done =>
    rw [List.map_eq_nil_iff.mp same]
    exact jsonTokens_nil
  | @mark c _ known _ ih =>
    obtain ⟨⟨_, gap⟩, rest, rfl, rfl, behind⟩ := List.map_eq_cons_iff.mp same
    obtain ⟨here, gaps⟩ := List.forall_mem_cons.mp gaps
    change jsonTokens dialect offset ([c] ++ gap ++ spacedText rest) = _
    rw [jsonTokens_mark known here.spaced, ih behind gaps]
    rfl
  | name spelling _ ih =>
    obtain ⟨⟨_, gap⟩, others, rfl, rfl, colon⟩ := List.map_eq_cons_iff.mp same
    obtain ⟨⟨_, second⟩, rest, rfl, rfl, behind⟩ := List.map_eq_cons_iff.mp colon
    obtain ⟨here, gaps⟩ := List.forall_mem_cons.mp gaps
    obtain ⟨next, gaps⟩ := List.forall_mem_cons.mp gaps
    have blanks : ∀ c ∈ gap, Blank c := by
      intro c member
      rcases here.spaced c member with blank | rfl
      · exact blank
      · exact absurd member (here.onLine rfl)
    change jsonTokens dialect offset ((spelling.written .jsonKey).text ++ gap ++ ([':'] ++ second ++ spacedText rest)) = _
    rw [jsonTokens_name spelling blanks rfl, jsonTokens_mark (by decide) next.spaced, ih behind gaps]
    rfl
  | @value kind piece _ lexical closed _ ih =>
    obtain ⟨⟨_, gap⟩, rest, rfl, rfl, behind⟩ := List.map_eq_cons_iff.mp same
    obtain ⟨here, gaps⟩ := List.forall_mem_cons.mp gaps
    rw [← behind] at closed
    change jsonTokens dialect offset (piece ++ gap ++ spacedText rest) = _
    rw [jsonTokens_value lexical here.spaced closed.head, ih behind gaps]
    rfl

end Grammar

namespace JsonText

theorem Tree.legible_written (tree : Tree) : Legible tree.written := by
  have whole := tree.legible closed_nil .done
  rwa [List.append_nil] at whole

theorem Legible.no_error {tokens : List Written} (legible : Legible tokens) :
    ∀ token ∈ tokens, token.kind ≠ .error := by
  induction legible with
  | done => exact fun _ none => absurd none List.not_mem_nil
  | mark _ _ ih => exact List.forall_mem_cons.mpr ⟨by simp [writtenMark], ih⟩
  | name spelling _ ih =>
    exact List.forall_mem_cons.mpr ⟨by simp [StringSpelling.written], List.forall_mem_cons.mpr ⟨by simp [writtenMark], ih⟩⟩
  | value lexical _ _ ih => exact List.forall_mem_cons.mpr ⟨lexical.no_error, ih⟩

private theorem exists_of_mem_spacedTokens {offset : Int} {spaced : List (Written × List Char)} {token : Token}
    (inside : token ∈ spacedTokens offset spaced) : ∃ written ∈ spaced.map Prod.fst, token.kind = written.kind := by
  induction spaced generalizing offset with
  | nil => exact absurd inside List.not_mem_nil
  | cons pair others ih =>
    rw [List.map_cons]
    rcases List.mem_cons.mp inside with rfl | later
    · exact ⟨_, List.mem_cons_self .., rfl⟩
    · obtain ⟨written, member, same⟩ := ih later
      exact ⟨written, List.mem_cons_of_mem _ member, same⟩

theorem Serialization.no_error {tree : Tree} (document : Serialization tree) :
    ∀ token ∈ document.tokens, token.kind ≠ .error := by
  intro token inside error
  obtain ⟨written, member, same⟩ := exists_of_mem_spacedTokens inside
  rw [document.written] at member
  exact tree.legible_written.no_error written member (same ▸ error)

/-- A document is read as exactly the tokens it is written with, each at its place. No token is an
error, and a string is a name exactly where the document has one. -/
theorem document_is_read (tree : Tree) (document : Serialization tree) (dialect : String) :
    Registry.builtin.parse .json dialect document.text = .ok document.tokens ∧
      ∀ token ∈ document.tokens, token.kind ≠ .error := by
  have read : ∀ chosen, Grammar.jsonTokens chosen 0 document.text = document.tokens := by
    intro chosen
    rw [Serialization.text, Grammar.jsonTokens_gap document.leadSpaced, Int.zero_add,
      Grammar.jsonTokens_spaced tree.legible_written document.written document.gaps, Serialization.tokens]
  exact ⟨congrArg Except.ok (read _), document.no_error⟩

/-- A name, its colon and what follows the comma are apart from what stands before them. -/
theorem document_is_read_gaps :
    ∃ (tree : Tree) (document : Serialization tree),
      document.text = "\n[null, \x7b\"a\" :\ntrue\x7d]".toList ∧
        document.tokens = [⟨.operator, ['['], 1⟩, ⟨.keyword, "null".toList, 2⟩, ⟨.operator, [','], 6⟩, ⟨.operator, ['\x7b'], 8⟩,
          ⟨.jsonKey, "\"a\"".toList, 9⟩, ⟨.operator, [':'], 13⟩, ⟨.keyword, "true".toList, 15⟩, ⟨.operator, ['\x7d'], 19⟩,
          ⟨.operator, [']'], 20⟩] ∧
        Registry.builtin.parse .json "" document.text = .ok document.tokens ∧
          ∀ token ∈ document.tokens, token.kind ≠ .error := by
  let name : StringSpelling := ⟨['a'], .plain (by unfold Unescaped; decide) (by decide) (by decide) .done⟩
  let tree : Tree := .array [.null, .object [(name, .bool true)]]
  let gap (token : Written) : List Char :=
    if token.kind = .jsonKey ∨ token.text = [','] then [' '] else if token.text = [':'] then ['\n'] else []
  let document : Serialization tree :=
    { lead := ['\n']
      spaced := tree.written.map fun token => (token, gap token)
      written := by rw [List.map_map, Function.comp_def, List.map_id']
      leadSpaced := List.forall_mem_singleton.mpr (Or.inr rfl)
      gaps := by
        intro pair member
        obtain ⟨token, _, rfl⟩ := List.mem_map.mp member
        by_cases behind : token.kind = .jsonKey ∨ token.text = [',']
        · have blank : gap token = [' '] := if_pos behind
          rw [blank]
          exact ⟨List.forall_mem_singleton.mpr (Or.inl (Or.inl rfl)), fun _ => by simp⟩
        · have other : gap token = if token.text = [':'] then ['\n'] else [] := if_neg behind
          refine ⟨?_, fun kind => absurd (Or.inl kind) behind⟩
          rw [other]
          split <;> simp }
  refine ⟨tree, document, ?_, ?_, document_is_read tree document ""⟩
  · decide +kernel
  · decide +kernel

def Tree.compact (tree : Tree) : Serialization tree where
  lead := []
  spaced := tree.written.map fun token => (token, [])
  written := by rw [List.map_map, Function.comp_def, List.map_id']
  leadSpaced := fun _ none => absurd none List.not_mem_nil
  gaps := by
    intro pair member
    obtain ⟨token, _, rfl⟩ := List.mem_map.mp member
    exact ⟨fun _ none => absurd none List.not_mem_nil, fun _ => List.not_mem_nil⟩

example : (Tree.array [.null, .object [(⟨[], .done⟩, .bool true)]]).compact.text = "[null,\x7b\"\":true\x7d]".toList := by
  decide +kernel

end JsonText

end Highlight
