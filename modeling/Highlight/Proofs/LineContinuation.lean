import Highlight.Proofs.Constructs
import Highlight.Proofs.DocumentTiling

/-! A script is read line by line, but its comments and template literals end where they end in
the whole text. The relation below reads a text without regard to lines; whatever the line
scanner carries from one line to the next, its tokens are the lines of what is read there. -/

namespace Highlight
open Scan

def linesOf (kind : TokenKind) (offset : Int) : List (List Char) → List Token
  | [] => []
  | first :: others => ⟨kind, first, offset⟩ :: linesOf kind (offset + first.length + 1) others

/-- The tokens of a stretch of text that goes on over the ends of lines. -/
def stretch (kind : TokenKind) (offset : Int) (text : List Char) : List Token := linesOf kind offset (Text.lines text)

private theorem stretch_of_not_mem (kind : TokenKind) (offset : Int) {line : List Char} (oneLine : '\n' ∉ line) :
    stretch kind offset line = [⟨kind, line, offset⟩] := by
  rw [stretch, Text.lines_of_not_mem oneLine, linesOf, linesOf]

private theorem stretch_append_newline (kind : TokenKind) (offset : Int) {line : List Char} (oneLine : '\n' ∉ line)
    (text : List Char) :
    stretch kind offset (line ++ '\n' :: text) = ⟨kind, line, offset⟩ :: stretch kind (offset + line.length + 1) text := by
  rw [stretch, Text.lines_append_newline oneLine, linesOf, stretch]

theorem stretch_tiles (kind : TokenKind) (offset : Int) (text : List Char) :
    Tiling (· = '\n') offset text (stretch kind offset text) := by
  have lined : ∀ lines : List (List Char), (∀ line ∈ lines, '\n' ∉ line) → ∀ offset : Int,
      Tiling (· = '\n') offset (Text.unlines lines) (linesOf kind offset lines) := by
    intro lines clean
    induction lines with
    | nil => exact fun _ => .done
    | cons first others ih =>
      intro offset
      have oneLine := clean first (List.mem_cons_self ..)
      have later := ih (fun line member => clean line (List.mem_cons_of_mem _ member)) (offset + first.length + 1)
      cases others with
      | nil =>
        have single : Tiling (· = '\n') offset (first ++ []) [⟨kind, first, offset⟩] := .token kind oneLine .done
        rwa [List.append_nil] at single
      | cons next more => exact .token kind oneLine (.skip rfl later)
  have tiling := lined (Text.lines text) (fun _ member => Text.newline_not_mem_lines member) offset
  rwa [Text.unlines_lines] at tiling

theorem kind_of_mem_stretch {kind : TokenKind} {offset : Int} {text : List Char} {token : Token}
    (member : token ∈ stretch kind offset text) : token.kind = kind := by
  have lined : ∀ (lines : List (List Char)) (offset : Int), token ∈ linesOf kind offset lines → token.kind = kind := by
    intro lines
    induction lines with
    | nil => exact fun _ member => absurd member List.not_mem_nil
    | cons first others ih =>
      intro offset member
      rcases List.mem_cons.mp member with rfl | inside
      · rfl
      · exact ih _ inside
  exact lined _ _ member

namespace Scan

def starts (offset : Nat) : List Lexeme → List Nat
  | [] => []
  | lexeme :: others => offset :: starts (offset + lexeme.text.length) others

/-- The offsets at which lines are read as code: where their lexemes begin, unless a lexeme goes
on with what an earlier line left open. -/
def codePlaces (words : Vocabulary) (carry : Carry) (offset : Nat) : List (List Char) → List Nat
  | [] => []
  | first :: others =>
    let (lexemes, next) := ScriptLine.lexemes words true carry first
    (starts offset lexemes).drop (if carry.isOpen then 1 else 0) ++
      codePlaces words next (offset + first.length + 1) others

def lineTokens (words : Vocabulary) (carry : Carry) (offset : Nat) : List (List Char) → List Token
  | [] => []
  | first :: others =>
    let (lexemes, next) := ScriptLine.lexemes words true carry first
    place offset lexemes ++ lineTokens words next (offset + first.length + 1) others

end Scan

/-- A text that begins at `offset` and is read as code, with comments and template literals read
to their ends at once. -/
inductive Reads : Nat → List Char → List Nat → List Token → Prop
  | done {offset : Nat} : Reads offset [] [] []
  | newline {offset : Nat} {rest : List Char} {places : List Nat} {tokens : List Token}
      (later : Reads (offset + 1) rest places tokens) : Reads offset ('\n' :: rest) places tokens
  | plain {offset : Nat} {piece rest : List Char} {places : List Nat} {tokens : List Token} (kind : Option TokenKind)
      (ordinary : ∀ construct : Construct, ¬ construct.opening <+: piece ++ rest) (oneLine : '\n' ∉ piece)
      (later : Reads (offset + piece.length) rest places tokens) :
      Reads offset (piece ++ rest) (offset :: places) (place offset [⟨kind, piece⟩] ++ tokens)
  | construct {offset : Nat} {inside : List Char} {places : List Nat} {tokens : List Token} (construct : Construct)
      (later : Reads (offset + (construct.opening ++ (construct.tail inside).taken).length) (construct.tail inside).rest
        places tokens) :
      Reads offset (construct.opening ++ inside) (offset :: places)
        (stretch construct.kind offset (construct.opening ++ (construct.tail inside).taken) ++ tokens)

def Continues (left : Option Construct) (offset : Nat) (text : List Char) (places : List Nat) (tokens : List Token) : Prop :=
  match left with
  | none => Reads offset text places tokens
  | some construct => ∃ later, tokens = stretch construct.kind offset (construct.tail text).taken ++ later ∧
      Reads (offset + (construct.tail text).taken.length) (construct.tail text).rest places later

def Follows (left : Option Construct) (offset : Nat) (text : List Char) (places : List Nat) (tokens : List Token) : Prop :=
  text = [] ∧ places = [] ∧ tokens = [] ∨ ∃ lines, text = '\n' :: lines ∧ Continues left (offset + 1) lines places tokens

namespace Scan

def carryOf : Option Construct → Carry
  | none => .neutral
  | some construct => construct.carry

theorem Carry.Single.exists_left {carry : Carry} (single : carry.Single) : ∃ left, carry = carryOf left := by
  obtain ⟨comment, template⟩ := carry
  cases comment with
  | true =>
    cases template with
    | true => rcases single with impossible | impossible <;> cases impossible
    | false => exact ⟨some .comment, rfl⟩
  | false =>
    cases template with
    | true => exact ⟨some .template, rfl⟩
    | false => exact ⟨none, rfl⟩

private theorem single_carryOf (left : Option Construct) : (carryOf left).Single := by
  match left with
  | none | some .template => exact Or.inl rfl
  | some .comment => exact Or.inr rfl

private theorem carryOf_injective {first second : Option Construct} (same : carryOf first = carryOf second) :
    first = second := by
  match first, second, same with
  | none, none, _ => rfl
  | some .comment, some .comment, _ => rfl
  | some .template, some .template, _ => rfl

namespace ScriptLine

theorem read_opening (words : Vocabulary) {construct : Construct} {c : Char} {following inside : List Char}
    (opened : c :: following = construct.opening ++ inside) :
    read words c following = ⟨some construct.kind,
      ⟨construct.opening.tail ++ (construct.tail inside).taken, (construct.tail inside).rest⟩,
      if (construct.tail inside).complete then .neutral else construct.carry⟩ := by
  cases construct with
  | comment =>
    cases opened
    change (⟨_, _, _⟩ : Reading) = ⟨_, _, _⟩
    congr 1
    change (⟨!(commentTail inside).complete, false⟩ : Carry) = if (commentTail inside).complete then _ else _
    cases (commentTail inside).complete <;> rfl
  | template =>
    cases opened
    change (⟨_, _, _⟩ : Reading) = ⟨_, _, _⟩
    congr 1
    change (⟨false, !(quotedTail '\x60' inside).complete⟩ : Carry) = if (quotedTail '\x60' inside).complete then _ else _
    cases (quotedTail '\x60' inside).complete <;> rfl

private theorem slash_ordinary {following : List Char} (ordinary : ¬ ['*'] <+: following) :
    (slash following).carry = .neutral := by
  unfold slash
  split
  · exact (operator_reads ..).2
  · rfl
  · exact absurd (List.prefix_append ['*'] _) ordinary
  · dsimp only
    split <;> rfl

/-- Only where a construct opens can something be left open. -/
theorem read_ordinary (words : Vocabulary) {c : Char} {following : List Char}
    (ordinary : ∀ construct : Construct, ¬ construct.opening <+: c :: following) :
    (read words c following).carry = .neutral := by
  unfold read
  split
  · rfl
  split
  · rfl
  split
  · rfl
  split
  next =>
    have notTemplate : c ≠ '\x60' := by
      intro same
      apply ordinary .template
      exact ⟨following, by rw [same]; rfl⟩
    have other : (c == '\x60') = false := by simpa using notTemplate
    change (⟨false, c == '\x60' && _⟩ : Carry) = _
    rw [other]
    rfl
  split
  · rfl
  split
  next same =>
    apply slash_ordinary
    rintro ⟨rest, star⟩
    exact ordinary .comment ⟨rest, by rw [same, ← star]; rfl⟩
  split
  · exact (hash_reads following).2
  · exact (operator_reads c following).2

end ScriptLine

end Scan

section
variable {left : Option Construct} {offset : Nat} {line more : List Char} {places : List Nat} {tokens : List Token}

theorem Follows.lineEnd (follows : Follows left offset more places tokens) :
    more = [] ∨ ∃ lines, more = '\n' :: lines := by
  rcases follows with ⟨none, -, -⟩ | ⟨lines, same, -⟩
  · exact Or.inl none
  · exact Or.inr ⟨lines, same⟩

theorem Follows.reads (follows : Follows none offset more places tokens) : Reads offset more places tokens := by
  rcases follows with ⟨rfl, rfl, rfl⟩ | ⟨lines, rfl, later⟩
  · exact .done
  · exact .newline later

/-- No construct opens over the end of a line. -/
theorem opening_of_append {construct : Construct} (filled : line ≠ []) (lineEnd : more = [] ∨ ∃ lines, more = '\n' :: lines)
    (opens : construct.opening <+: line ++ more) : construct.opening <+: line := by
  obtain ⟨c, rest, rfl⟩ := List.exists_cons_of_ne_nil filled
  rcases lineEnd with rfl | ⟨lines, rfl⟩
  · rwa [List.append_nil] at opens
  obtain ⟨after, same⟩ := opens
  cases construct with
  | template =>
    cases same
    exact ⟨rest, rfl⟩
  | comment =>
    cases rest with
    | nil => cases same
    | cons d others =>
      cases same
      exact ⟨others, rfl⟩

theorem Follows.resumes {construct : Construct} (follows : Follows (some construct) (offset + line.length) more places tokens)
    {inside : List Char} (unfinished : (construct.tail inside).complete = false) {before : List Char}
    (whole : before ++ inside = line) (oneLine : '\n' ∉ line) :
    ∃ later, ⟨construct.kind, line, offset⟩ :: tokens =
        stretch construct.kind offset (before ++ (construct.tail (inside ++ more)).taken) ++ later ∧
      Reads (offset + (before ++ (construct.tail (inside ++ more)).taken).length) (construct.tail (inside ++ more)).rest
        places later := by
  rw [Construct.tail_append_open unfinished follows.lineEnd, ← List.append_assoc, whole]
  rcases follows with ⟨rfl, rfl, rfl⟩ | ⟨lines, rfl, later, same, reads⟩
  · have nothing : construct.tail [] = ⟨⟨[], []⟩, false⟩ := by cases construct <;> rfl
    rw [nothing, List.append_nil, stretch_of_not_mem _ _ oneLine]
    exact ⟨[], rfl, .done⟩
  · rw [Construct.tail_newline]
    change ∃ _, _ = stretch _ _ (line ++ '\n' :: (construct.tail lines).taken) ++ _ ∧
      Reads (offset + (line ++ '\n' :: (construct.tail lines).taken).length) (construct.tail lines).rest _ _
    rw [stretch_append_newline _ _ oneLine]
    refine ⟨later, ?_, ?_⟩
    · rw [same, List.cons_append]
      simp only [Int.natCast_add, Int.natCast_one]
    · have sum : offset + (line ++ '\n' :: (construct.tail lines).taken).length =
          offset + line.length + 1 + (construct.tail lines).taken.length := by
        rw [List.length_append, List.length_cons]
        omega
      rw [sum]
      exact reads

theorem Reads.closed {construct : Construct} {inside : List Char} (complete : (construct.tail inside).complete = true)
    (oneLine : '\n' ∉ construct.opening ++ (construct.tail inside).taken)
    (later : Reads (offset + (construct.opening ++ (construct.tail inside).taken).length)
      ((construct.tail inside).rest ++ more) places tokens) :
    Reads offset (construct.opening ++ inside ++ more) (offset :: places)
      (⟨construct.kind, construct.opening ++ (construct.tail inside).taken, offset⟩ :: tokens) := by
  have whole : construct.tail (inside ++ more) = _ := Construct.tail_append_closed complete more
  have reads := @Reads.construct offset (inside ++ more) places tokens construct (by rw [whole]; exact later)
  rw [whole, stretch_of_not_mem _ _ oneLine] at reads
  rw [List.append_assoc]
  exact reads

theorem Reads.opened {construct : Construct} {inside : List Char} (unfinished : (construct.tail inside).complete = false)
    (oneLine : '\n' ∉ construct.opening ++ inside)
    (follows : Follows (some construct) (offset + (construct.opening ++ inside).length) more places tokens) :
    Reads offset (construct.opening ++ inside ++ more) (offset :: places)
      (⟨construct.kind, construct.opening ++ inside, offset⟩ :: tokens) := by
  obtain ⟨later, same, reads⟩ := follows.resumes unfinished rfl oneLine
  rw [same, List.append_assoc]
  exact .construct construct reads

/-- What opens nothing on its line opens nothing in the whole text. -/
theorem Reads.ordinary {piece rest : List Char} (kind : Option TokenKind) (filled : piece ++ rest ≠ [])
    (ordinary : ∀ construct : Construct, ¬ construct.opening <+: piece ++ rest) (oneLine : '\n' ∉ piece)
    (lineEnd : more = [] ∨ ∃ lines, more = '\n' :: lines)
    (later : Reads (offset + piece.length) (rest ++ more) places tokens) :
    Reads offset (piece ++ rest ++ more) (offset :: places) (place offset [⟨kind, piece⟩] ++ tokens) := by
  have whole : piece ++ rest ++ more = piece ++ (rest ++ more) := List.append_assoc ..
  rw [whole]
  refine .plain kind ?_ oneLine later
  intro construct opens
  rw [← whole] at opens
  exact ordinary construct (opening_of_append filled lineEnd opens)

end

namespace Scan.ScriptLine
variable (words : Vocabulary) {left : Option Construct} {more : List Char} {places : List Nat} {tokens : List Token}

private theorem scan_reads (carry : Carry) (text : List Char) (start : carry = .neutral) {offset : Nat}
    (oneLine : '\n' ∉ text)
    (last : ((reader words).scan carry text).2 = carryOf left)
    (follows : Follows left (offset + text.length) more places tokens) :
    Reads offset (text ++ more) (starts offset ((reader words).scan carry text).1 ++ places)
      (place offset ((reader words).scan carry text).1 ++ tokens) := by
  -- a reading either leaves nothing open, and the scan goes on behind it, or it takes the rest of the line
  fun_induction Reader.scan (reader words) carry text generalizing offset with
  | case1 carry =>
    obtain rfl : left = none := carryOf_injective (last.symm.trans start)
    exact follows.reads
  | case2 carry c following reading lexemes final same ih =>
    rw [same] at ih
    dsimp only at last ih ⊢
    have whole : c :: following = (c :: reading.body.taken) ++ reading.body.rest := by
      have covers : reading.body.taken ++ reading.body.rest = following := (reader words).covers c following
      rw [List.cons_append, covers]
    obtain ⟨taken, clean⟩ : '\n' ∉ c :: reading.body.taken ∧ '\n' ∉ reading.body.rest := by
      rw [whole, List.mem_append, not_or] at oneLine
      exact oneLine
    have behind : offset + (c :: reading.body.taken).length + reading.body.rest.length = offset + (c :: following).length := by
      rw [whole, List.length_append, Nat.add_assoc]
    by_cases opens : ∃ construct : Construct, construct.opening <+: c :: following
    · obtain ⟨construct, inside, opened⟩ := opens
      have read : reading = _ := read_opening words opened.symm
      have text : c :: reading.body.taken = construct.opening ++ (construct.tail inside).taken := by
        rw [read]
        cases construct <;> cases opened <;> rfl
      have rest : reading.body.rest = (construct.tail inside).rest := by rw [read]
      have kind : reading.kind = some construct.kind := by rw [read]
      rw [kind, text, place]
      cases complete : (construct.tail inside).complete with
      | true =>
        have closed : reading.carry = .neutral := by rw [read, if_pos complete]
        have later := ih closed clean last (behind ▸ follows)
        rw [text, rest] at later
        rw [← opened]
        exact .closed complete (by rw [← text]; exact taken) later
      | false =>
        -- the reading takes the rest of the line, so the scan ends here
        have kept : reading.carry = carryOf (some construct) := by
          rw [read, complete]
          rfl
        have nothing : reading.body.rest = [] := by rw [rest, Construct.tail_rest complete]
        rw [nothing, Reader.scan] at same
        cases same
        obtain rfl : left = some construct := carryOf_injective (last.symm.trans kept)
        rw [← opened] at follows oneLine ⊢
        rw [Construct.tail_taken complete]
        exact .opened complete oneLine follows
    · have ordinary : ∀ construct : Construct, ¬ construct.opening <+: c :: following :=
        fun construct prefixed => opens ⟨construct, prefixed⟩
      have later := ih (read_ordinary words ordinary) clean last (behind ▸ follows)
      rw [whole] at ordinary ⊢
      rw [place_cons, List.append_assoc (place offset _)]
      exact .ordinary reading.kind (List.cons_ne_nil _ _) ordinary taken follows.lineEnd later

private theorem code_reads (atStart : Bool) {text : List Char} {offset : Nat} (oneLine : '\n' ∉ text)
    (last : (code words atStart text).2 = carryOf left)
    (follows : Follows left (offset + text.length) more places tokens) :
    Reads offset (text ++ more) (starts offset (code words atStart text).1 ++ places)
      (place offset (code words atStart text).1 ++ tokens) := by
  unfold code at last ⊢
  split at last
  next rest =>
    -- a hashbang takes its whole line, and no construct opens with a hash
    obtain rfl : left = none := carryOf_injective last.symm
    refine .plain (some .preprocessor) ?_ oneLine follows.reads
    intro construct opens
    obtain ⟨after, same⟩ := opens
    cases construct <;> cases same
  next => exact scan_reads words .neutral text rfl oneLine last follows

theorem lexemes_closed {construct : Construct} {line : List Char} (complete : (construct.tail line).complete = true) :
    lexemes words true (carryOf (some construct)) line =
      (⟨some construct.kind, (construct.tail line).taken⟩ :: (code words false (construct.tail line).rest).1,
        (code words false (construct.tail line).rest).2) := by
  cases construct with
  | comment =>
    change resume words .comment (commentTail line) ⟨!(commentTail line).complete, false⟩ = _
    rw [show (commentTail line).complete = true from complete]
    rfl
  | template =>
    change resume words .string (quotedTail '\x60' line) ⟨false, !(quotedTail '\x60' line).complete⟩ = _
    rw [show (quotedTail '\x60' line).complete = true from complete]
    rfl

theorem lexemes_open {construct : Construct} {line : List Char} (unfinished : (construct.tail line).complete = false) :
    lexemes words true (carryOf (some construct)) line =
      ([⟨some construct.kind, (construct.tail line).taken⟩], carryOf (some construct)) := by
  cases construct with
  | comment =>
    change resume words .comment (commentTail line) ⟨!(commentTail line).complete, false⟩ = _
    rw [show (commentTail line).complete = false from unfinished]
    rfl
  | template =>
    change resume words .string (quotedTail '\x60' line) ⟨false, !(quotedTail '\x60' line).complete⟩ = _
    rw [show (quotedTail '\x60' line).complete = false from unfinished]
    rfl

private theorem lexemes_continue (before : Option Construct) {line : List Char} {offset : Nat} (oneLine : '\n' ∉ line)
    (last : (lexemes words true (carryOf before) line).2 = carryOf left)
    (follows : Follows left (offset + line.length) more places tokens) :
    Continues before offset (line ++ more)
      ((starts offset (lexemes words true (carryOf before) line).1).drop (if (carryOf before).isOpen then 1 else 0) ++ places)
      (place offset (lexemes words true (carryOf before) line).1 ++ tokens) := by
  cases before with
  | none => exact code_reads words true oneLine last follows
  | some construct =>
    have opened : (carryOf (some construct)).isOpen = true := by cases construct <;> rfl
    rw [opened, if_pos rfl]
    cases complete : (construct.tail line).complete with
    | true =>
      have whole : (construct.tail line).taken ++ (construct.tail line).rest = line := construct.tail_covers line
      rw [lexemes_closed words complete] at last ⊢
      have clean : '\n' ∉ (construct.tail line).taken ∧ '\n' ∉ (construct.tail line).rest := by
        rw [← whole, List.mem_append, not_or] at oneLine
        exact oneLine
      have behind : offset + (construct.tail line).taken.length + (construct.tail line).rest.length = offset + line.length := by
        rw [Nat.add_assoc, ← List.length_append, whole]
      have reads := code_reads words false clean.2 last (behind ▸ follows)
      refine ⟨place (offset + (construct.tail line).taken.length : Nat) (code words false (construct.tail line).rest).1 ++ tokens, ?_, ?_⟩
      · rw [Construct.tail_append_closed complete, stretch_of_not_mem _ _ clean.1]
        rfl
      · rw [Construct.tail_append_closed complete]
        exact reads
    | false =>
      rw [lexemes_open words complete] at last ⊢
      obtain rfl : some construct = left := carryOf_injective last
      obtain ⟨later, same, reads⟩ := follows.resumes complete (List.nil_append line) oneLine
      refine ⟨later, ?_, reads⟩
      rw [Construct.tail_taken complete]
      exact same

private theorem lines_continue (before : Option Construct) {offset : Nat} {first : List Char} {others : List (List Char)}
    (oneLine : ∀ line ∈ first :: others, '\n' ∉ line) :
    Continues before offset (Text.unlines (first :: others)) (codePlaces words (carryOf before) offset (first :: others))
      (lineTokens words (carryOf before) offset (first :: others)) := by
  -- what a line leaves open, the next one begins with
  induction others generalizing before offset first with
  | nil =>
    obtain ⟨left, last⟩ := (lexemes_scanned words true (single_carryOf before) first).single.exists_left
    have ended : Follows left (offset + first.length) [] [] [] := Or.inl ⟨rfl, rfl, rfl⟩
    have reads := lexemes_continue words before (oneLine first (List.mem_cons_self ..)) last ended
    rw [List.append_nil] at reads
    exact reads
  | cons next more ih =>
    obtain ⟨left, last⟩ := (lexemes_scanned words true (single_carryOf before) first).single.exists_left
    have later := @ih left (offset + first.length + 1) next fun line member => oneLine line (List.mem_cons_of_mem _ member)
    have reads := lexemes_continue words before (oneLine first (List.mem_cons_self ..)) last (Or.inr ⟨_, rfl, later⟩)
    rw [← last] at reads
    exact reads

theorem text_reads (text : List Char) :
    Reads 0 text (codePlaces words .neutral 0 (Text.lines text)) (lineTokens words .neutral 0 (Text.lines text)) := by
  obtain ⟨first, others, same⟩ := List.exists_cons_of_ne_nil (Text.lines_ne_nil text)
  have whole := Text.unlines_lines text
  have oneLine : ∀ line ∈ first :: others, '\n' ∉ line := by
    intro line member
    rw [← same] at member
    exact Text.newline_not_mem_lines member
  have reads := @lines_continue words none 0 first others oneLine
  rw [← same, whole] at reads
  exact reads

end Scan.ScriptLine

end Highlight
