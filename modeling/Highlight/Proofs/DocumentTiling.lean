import Highlight.Proofs.Scanning
import Highlight.Proofs.Tiling

/-! The tokens of a document tile its text, whatever the text holds and however its grammar
carries constructs from line to line. What is left between tokens is what grammars skip, so
every visible character is classified and the ranges to colour follow one another. -/

namespace Highlight
open Scan

/-- Giving roles moves no token. -/
theorem scriptRoles_extents (afterAccess : Bool) (tokens : List Token) :
    (scriptRoles afterAccess tokens).map Token.extent = tokens.map Token.extent := by
  induction tokens generalizing afterAccess with
  | nil => rfl
  | cons token others ih => simp only [scriptRoles, List.map_cons, Token.extent, ih]

private theorem jsonRoles_extents (tokens : List Token) : (jsonRoles tokens).map Token.extent = tokens.map Token.extent := by
  induction tokens with
  | nil => rfl
  | cons token others ih => simp only [jsonRoles, List.map_cons, Token.extent, ih]

/-- Lexemes that are placed one after the other tile the text they join to. -/
theorem Tiling.place {skipped : Char → Prop} {lexemes : List Lexeme} (spaces : ∀ c, isSpace c = true → skipped c)
    (spaced : ∀ lexeme ∈ lexemes, lexeme.Spaced) (oneLine : '\n' ∉ (lexemes.map Lexeme.text).flatten) (offset : Int) :
    Tiling skipped offset (lexemes.map Lexeme.text).flatten (Scan.place offset lexemes) := by
  induction lexemes generalizing offset with
  | nil => exact .done
  | cons lexeme others ih =>
    simp only [List.map_cons, List.flatten_cons, List.mem_append, not_or] at oneLine ⊢
    have later := ih (fun other member => spaced other (List.mem_cons_of_mem _ member)) oneLine.2
    obtain ⟨kind, text⟩ := lexeme
    cases kind with
    | some kind => exact .token kind oneLine.1 (later _)
    | none =>
      refine .skips (fun c member => ?_) (later _)
      exact spaces c (spaced _ (List.mem_cons_self ..) rfl c member)

namespace Grammar

/-- The characters that a grammar leaves between tokens: line feeds, and outside plain text the
spaces of the scanners. -/
def Skips (grammar : Grammar) (c : Char) : Prop := c = '\n' ∨ grammar ≠ .text ∧ isSpace c = true

private theorem scriptLine_tiles {skipped : Char → Prop} (spaces : ∀ c, isSpace c = true → skipped c) (words : Vocabulary)
    {state : ScriptState} (single : state.carry.Single) {line : List Char} (oneLine : '\n' ∉ line) :
    Tiling skipped 0 line (scriptLine words state line).1 ∧ (scriptLine words state line).2.carry.Single := by
  have scanned := ScriptLine.lexemes_scanned words true single line
  refine ⟨?_, scanned.single⟩
  have placed : Tiling skipped 0 _ _ := .place spaces scanned.spaced (by rwa [scanned.whole]) 0
  rw [scanned.whole] at placed
  exact placed.rekind (scriptRoles_extents ..)

private theorem jsonLine_tiles {skipped : Char → Prop} (spaces : ∀ c, isSpace c = true → skipped c) {line : List Char}
    (oneLine : '\n' ∉ line) : Tiling skipped 0 line (jsonLine line) := by
  have whole := JsonLine.lexemes_text line
  have placed : Tiling skipped 0 _ _ := .place spaces (JsonLine.lexemes_spaced line) (by rwa [whole]) 0
  rw [whole] at placed
  exact placed.rekind (jsonRoles_extents _)

private theorem textLine_tiles (skipped : Char → Prop) {line : List Char} (oneLine : '\n' ∉ line) :
    Tiling skipped 0 line (textLine line) := by
  cases line with
  | nil => exact .done
  | cons c rest =>
    have tiling : Tiling skipped 0 ((c :: rest) ++ []) [⟨.text, c :: rest, 0⟩] := .token .text oneLine .done
    rwa [List.append_nil] at tiling

private theorem line_tiles (grammar : Grammar) (dialect : String) {state : ScriptState} (single : state.carry.Single)
    {line : List Char} (oneLine : '\n' ∉ line) :
    Tiling grammar.Skips 0 line (grammar.line dialect state line).1 ∧
      (grammar.line dialect state line).2.carry.Single := by
  cases grammar with
  | javascript | typescript =>
    exact scriptLine_tiles (fun c space => Or.inr ⟨by decide, space⟩) _ single oneLine
  | json => exact ⟨jsonLine_tiles (fun c space => Or.inr ⟨by decide, space⟩) oneLine, Carry.single_neutral⟩
  | text => exact ⟨textLine_tiles _ oneLine, Carry.single_neutral⟩

/-- Lines tile the text they join to. The carried state is what makes the next line read to its end. -/
theorem lines_tile (grammar : Grammar) (dialect : String) {state : ScriptState} (single : state.carry.Single)
    (offset : Int) {lines : List (List Char)} (oneLine : ∀ line ∈ lines, '\n' ∉ line) :
    Tiling grammar.Skips offset (Text.unlines lines) (grammar.lines dialect state offset lines) := by
  induction lines generalizing state offset with
  | nil => exact .done
  | cons first others ih =>
    obtain ⟨here, kept⟩ := grammar.line_tiles dialect single (oneLine first (List.mem_cons_self ..))
    have placed := here.shift offset
    rw [Int.zero_add] at placed
    have later := ih kept (offset + first.length + 1) fun line member => oneLine line (List.mem_cons_of_mem _ member)
    cases others with
    | nil => simpa only [Grammar.lines, Text.unlines, List.append_nil] using placed
    | cons next more => exact placed.append (.skip (Or.inl rfl) later)

theorem tokens_tile (grammar : Grammar) (dialect : String) (text : List Char) :
    Tiling grammar.Skips 0 text (grammar.tokens dialect text) := by
  have tiling : Tiling grammar.Skips 0 (Text.unlines (Text.lines text)) (grammar.tokens dialect text) :=
    grammar.lines_tile _ Carry.single_neutral 0 fun _ member => Text.newline_not_mem_lines member
  rwa [Text.unlines_lines] at tiling

end Grammar

structure Tiles (skipped : Char → Prop) (text : List Char) (tokens : List Token) : Prop where
  ordered : tokens.Pairwise fun a b => a.stop ≤ b.start
  inside : ∀ token ∈ tokens, 0 ≤ token.start ∧ token.stop ≤ text.length
  slice : ∀ token ∈ tokens, (text.take token.stop.toNat).drop token.start.toNat = token.text
  oneLine : ∀ token ∈ tokens, '\n' ∉ token.text
  complete : ∀ (index : Nat) (c : Char), text[index]? = some c →
    (∃ token ∈ tokens, token.covers index = true) ∨ skipped c

theorem Tiling.tiles {skipped : Char → Prop} {text : List Char} {tokens : List Token}
    (tiling : Tiling skipped 0 text tokens) : Tiles skipped text tokens := by
  refine ⟨tiling.ordered, ?_, ?_, fun token member => tiling.oneLine member, ?_⟩
  · intro token member
    simpa using tiling.bounds member
  · intro token member
    obtain ⟨before, after, rfl, start⟩ := tiling.split member
    rw [Int.zero_add] at start
    have stop : token.stop.toNat = (before ++ token.text).length := by
      simp only [Token.stop, start, List.length_append]
      omega
    rw [stop, List.take_left, start, Int.toNat_natCast, List.drop_left]
  · intro index c found
    by_cases held : ∃ token ∈ tokens, token.covers index = true
    · exact Or.inl held
    · refine Or.inr (tiling.gap found fun token member => ?_)
      rw [Int.zero_add]
      exact Bool.eq_false_iff.mpr fun covered => held ⟨token, member, covered⟩

structure Classifies (skipped : Char → Prop) (text : List Char) (ranges : List Range) : Prop where
  proper : ∀ range ∈ ranges, range.start < range.stop
  disjoint : ranges.Pairwise fun a b => a.stop ≤ b.start
  increasing : ranges.Pairwise fun a b => a.stop < b.stop
  complete : ∀ (index : Nat) (c : Char), text[index]? = some c →
    (∃ range ∈ ranges, range.start ≤ index ∧ index < range.stop) ∨ skipped c

def Token.range (token : Token) : Range := ⟨token.start, token.stop, token.kind.classList⟩

theorem classRanges_eq (tokens : List Token) :
    classRanges tokens = (tokens.filter fun token => !token.text.isEmpty).map Token.range := by
  unfold classRanges ranges
  induction tokens with
  | nil => rfl
  | cons token others ih =>
    have named : (token.kind.classList == "") = false := by simpa using token.kind.classList_ne_empty
    rw [List.filterMap_cons, List.filter_cons, ih]
    cases token.text.isEmpty with
    | true => simp
    | false => simp [named, Token.range]

theorem Token.start_lt_stop {token : Token} (filled : token.text.isEmpty = false) : token.start < token.stop := by
  have := List.length_pos_iff.mpr (List.isEmpty_eq_false_iff.mp filled)
  unfold Token.stop
  omega

theorem Tiles.classifies {skipped : Char → Prop} {text : List Char} {tokens : List Token}
    (tiles : Tiles skipped text tokens) : Classifies skipped text (classRanges tokens) := by
  have filled : ∀ token ∈ tokens.filter (fun token => !token.text.isEmpty), token.start < token.stop := by
    intro token member
    exact Token.start_lt_stop (by simpa using (List.mem_filter.mp member).2)
  have ordered := tiles.ordered.filter fun token => !token.text.isEmpty
  rw [classRanges_eq]
  refine ⟨?_, List.pairwise_map.mpr ordered, List.pairwise_map.mpr ?_, ?_⟩
  · intro range member
    obtain ⟨token, inside, rfl⟩ := List.mem_map.mp member
    exact filled token inside
  · refine ordered.imp_of_mem fun _ later before => ?_
    exact Int.lt_of_le_of_lt before (filled _ later)
  · intro index c found
    refine (tiles.complete index c found).imp_left fun ⟨token, member, covered⟩ => ?_
    refine ⟨token.range, List.mem_map.mpr ⟨token, List.mem_filter.mpr ⟨member, ?_⟩, rfl⟩, Token.covers_iff.mp covered⟩
    rw [Token.filled_of_covers covered]
    rfl

/-- The tokens of a document are pieces of it in their order, none of them goes over the end of
a line, and only line feeds and skipped spaces lie between them. So the ranges to colour are
proper, disjoint and in order, and no visible character is missed. -/
theorem document_is_tiled (language : Language) (grammar : Grammar)
    (known : Registry.builtin.grammar? language = some grammar) (dialect : String) (text : List Char) :
    ∃ tokens, Registry.builtin.parse language dialect text = .ok tokens ∧
      Tiles grammar.Skips text tokens ∧ Classifies grammar.Skips text (classRanges tokens) := by
  have tiles := (grammar.tokens_tile dialect text).tiles
  refine ⟨grammar.tokens dialect text, ?_, tiles, tiles.classifies⟩
  simp only [Registry.parse, known]

theorem document_is_tiled_script :
    Registry.builtin.grammar? .typescript = some .typescript ∧
      ∃ tokens, Registry.builtin.parse .typescript "js" "a /*\n\n*/ `\\\n`\x23b".toList = .ok tokens ∧
        Tiles Grammar.typescript.Skips "a /*\n\n*/ `\\\n`\x23b".toList tokens ∧
        Classifies Grammar.typescript.Skips "a /*\n\n*/ `\\\n`\x23b".toList (classRanges tokens) :=
  ⟨rfl, document_is_tiled .typescript .typescript rfl "js" _⟩

end Highlight
