import Highlight.Proofs.BlockCoherence
import Highlight.Proofs.Indenting

/-! A block keeps the text it was given last, normalized. Line ends are unified in one pass, which takes
one carriage return away from before a line feed; of two in a row the first one then stands there.
Undoing an indentation puts no carriage return before a line feed. It can only take one away, together
with all that its line holds. -/

namespace Highlight

namespace Text

private theorem returnFeed_cons_iff (c : Char) (text : List Char) :
    ['\r', '\n'] <:+: c :: text ↔ c = '\r' ∧ ['\n'] <+: text ∨ ['\r', '\n'] <:+: text := by
  rw [List.infix_cons_iff, List.cons_prefix_cons, eq_comm]

private theorem returnFeed_newline_iff (text : List Char) : ['\r', '\n'] <:+: '\n' :: text ↔ ['\r', '\n'] <:+: text := by
  rw [returnFeed_cons_iff]
  exact or_iff_right fun feed => absurd feed.1 (by decide)

private theorem unifyLineEnds_opens_iff (text : List Char) :
    ['\n'] <+: unifyLineEnds text ↔ ['\n'] <+: text ∨ ['\r', '\n'] <+: text := by
  fun_cases unifyLineEnds text with
  | case1 c d rest pair =>
    obtain ⟨rfl : c = '\r', rfl : d = '\n'⟩ := pair
    exact iff_of_true ⟨_, rfl⟩ (Or.inr ⟨rest, rfl⟩)
  | case2 c d rest other =>
    have single : ¬ ['\r', '\n'] <+: c :: d :: rest := by
      rintro ⟨more, same⟩
      cases same
      exact other ⟨rfl, rfl⟩
    simp only [List.cons_prefix_cons, List.nil_prefix, and_true, single, or_false]
  | case3 text short =>
    have single : ¬ ['\r', '\n'] <+: text := fun ⟨more, same⟩ => short _ _ more same.symm
    exact (or_iff_left single).symm

/-- Only of two carriage returns in a row one is left before the line feed. -/
theorem returnFeed_unifyLineEnds_iff (text : List Char) :
    ['\r', '\n'] <:+: unifyLineEnds text ↔ ['\r', '\r', '\n'] <:+: text := by
  fun_induction unifyLineEnds text with
  | case1 c d rest pair ih =>
    obtain ⟨rfl : c = '\r', rfl : d = '\n'⟩ := pair
    rw [returnFeed_newline_iff, ih, List.infix_cons_iff, List.infix_cons_iff]
    simp
  | case2 c d rest other ih =>
    have feed : c = '\r' → ¬ ['\n'] <+: d :: rest := by
      rintro rfl ⟨more, same⟩
      cases same
      exact other ⟨rfl, rfl⟩
    have front : c = '\r' ∧ ['\n'] <+: unifyLineEnds (d :: rest) ↔ ['\r', '\r', '\n'] <+: c :: d :: rest := by
      rw [unifyLineEnds_opens_iff, List.cons_prefix_cons (b := c), @eq_comm _ '\r' c]
      exact and_congr_right fun same => or_iff_right (feed same)
    rw [returnFeed_cons_iff, ih, List.infix_cons_iff (a := c), front]
  | case3 text short =>
    have length : text.length ≤ 1 := by
      obtain _ | ⟨c, _ | ⟨d, rest⟩⟩ := text
      · exact Nat.zero_le 1
      · exact Nat.le_refl 1
      · exact absurd rfl (short c d rest)
    exact iff_of_false (fun inside => by simpa using inside.length_le.trans length) fun inside => by
      simpa using inside.length_le.trans length

private theorem returnFeed_append_newline_iff {line : List Char} (oneLine : '\n' ∉ line) (text : List Char) :
    ['\r', '\n'] <:+: line ++ '\n' :: text ↔ line.getLast? = some '\r' ∨ ['\r', '\n'] <:+: text := by
  induction line with
  | nil => simp [returnFeed_newline_iff]
  | cons c line ih =>
    rw [List.cons_append, returnFeed_cons_iff, ih (List.not_mem_of_not_mem_cons oneLine), ← or_assoc]
    refine or_congr_left ?_
    cases line with
    | nil => simp [List.getLast?_singleton]
    | cons d more =>
      have solid : d ≠ '\n' := (List.ne_of_not_mem_cons (List.not_mem_of_not_mem_cons oneLine)).symm
      simp [List.cons_prefix_cons, solid.symm, List.getLast?_cons_cons]

/-- A carriage return stands before a line feed where it ends a line that another one follows. -/
theorem returnFeed_unlines_iff {lines : List (List Char)} (clean : ∀ line ∈ lines, '\n' ∉ line) :
    ['\r', '\n'] <:+: unlines lines ↔ ∃ line ∈ lines.dropLast, line.getLast? = some '\r' := by
  induction lines with
  | nil => simp [unlines]
  | cons line others ih =>
    obtain ⟨here, behind⟩ := List.forall_mem_cons.mp clean
    cases others with
    | nil =>
      have alone : ¬ ['\r', '\n'] <:+: line := fun inside => here (inside.subset (by simp))
      simp [unlines, alone]
    | cons next more =>
      rw [unlines, Letter.of_char, returnFeed_append_newline_iff here, ih behind, List.dropLast_cons_cons, List.exists_mem_cons_iff]

/-- The lines of a text that are left when its indentation is undone, as they are before it is taken from them. -/
def keptLines (text : List Char) : List (List Char) := if opensBlank text then (lines text).tail else lines text

def takenIndent (text : List Char) : List Char := if opensBlank text then indentOf ((lines text).tail.headD []) else []

private theorem unindent_eq (text : List Char) : unindent text = unlines
    ((keptLines text).map (removeIndent (takenIndent text))) := by
  obtain ⟨first, others, shape⟩ := List.exists_cons_of_ne_nil (lines_ne_nil text)
  cases blank : isBlankLine first with
  | false =>
    have solid : opensBlank text = false := (opensBlank_eq shape).trans blank
    have same : removeIndent [] = id := funext (removeIndent_append [])
    rw [unindent_of_solid solid, keptLines, takenIndent, solid]
    simp only [Bool.false_eq_true, if_false]
    rw [same, List.map_id, unlines_lines]
  | true =>
    have opens : opensBlank text = true := (opensBlank_eq shape).trans blank
    rw [keptLines, takenIndent, if_pos opens, if_pos opens, shape]
    cases others with
    | nil => exact unindent_of_line shape blank
    | cons second more => exact unindent_of_lines shape blank

private theorem getLast?_removeIndent_iff {indent line : List Char} {c : Char} :
    (removeIndent indent line).getLast? = some c ↔ line.getLast? = some c ∧ line ≠ indent := by
  by_cases front : indent <+: line
  · obtain ⟨rest, rfl⟩ := front
    rw [removeIndent_append, List.getLast?_append]
    cases rest with
    | nil => simp
    | cons d more => simp [List.getLast?_eq_some_getLast]
  · rw [removeIndent_of_apart front]
    refine (and_iff_left ?_).symm
    rintro rfl
    exact front (List.prefix_refl _)

private theorem returnFeed_unindent_iff (text : List Char) :
    ['\r', '\n'] <:+: unindent text ↔
      ∃ line ∈ (keptLines text).dropLast, line.getLast? = some '\r' ∧ line ≠ takenIndent text := by
  have kept : ∀ line ∈ keptLines text, '\n' ∉ line := by
    intro line member
    unfold keptLines at member
    split at member
    · exact newline_not_mem_lines (List.mem_of_mem_tail member)
    · exact newline_not_mem_lines member
  have clean : ∀ line ∈ (keptLines text).map (removeIndent (takenIndent text)), '\n' ∉ line :=
    List.forall_mem_map.mpr fun line member held => kept line member ((removeIndent_suffix _ line).subset held)
  rw [unindent_eq, returnFeed_unlines_iff clean, ← List.map_dropLast]
  simp only [List.mem_map, exists_exists_and_eq_and, getLast?_removeIndent_iff]

private theorem opensBlank_cons (c : Char) (text : List Char) : opensBlank (c :: text) =
    (c == '\n' || isBlank c && opensBlank text) := by
  obtain ⟨first, others, shape⟩ := List.exists_cons_of_ne_nil (lines_ne_nil text)
  rw [opensBlank_eq shape, opensBlank, lines, shape, Letter.seen_char]
  split
  next same => simp [same, isBlankLine]
  next other => simp [other, isBlankLine]

/-- A carriage return is blank, so a line is as blank without the one at its end. -/
theorem opensBlank_unifyLineEnds (text : List Char) : opensBlank (unifyLineEnds text) = opensBlank text := by
  fun_induction unifyLineEnds text with
  | case1 c d rest pair ih =>
    obtain ⟨rfl : c = '\r', rfl : d = '\n'⟩ := pair
    rw [opensBlank_cons, opensBlank_cons, opensBlank_cons]
    rfl
  | case2 c d rest other ih => rw [opensBlank_cons, opensBlank_cons, ih]
  | case3 => rfl

/-- Undoing an indentation puts no carriage return before a line feed. -/
theorem returnFeed_of_unindent {text : List Char} (held : ['\r', '\n'] <:+: unindent text) : ['\r', '\n'] <:+: text := by
  obtain ⟨line, member, ended, -⟩ := (returnFeed_unindent_iff text).mp held
  have followed : line ∈ (lines text).dropLast := by
    unfold keptLines at member
    split at member
    · rw [← List.tail_dropLast] at member
      exact List.mem_of_mem_tail member
    · exact member
  rw [← unlines_lines text]
  exact (returnFeed_unlines_iff fun _ inside => newline_not_mem_lines inside).mpr ⟨line, followed, ended⟩

end Text

def Operation.given? {θ α γ : Type} : Operation θ α γ → Option (List γ)
  | setCode code => some code
  | _ => none

/-- The text that a block was given last, which is `code` if no operation gave one. -/
def lastGiven {θ α γ : Type} (code : List γ) (operations : List (Operation θ α γ)) : List γ :=
  operations.foldl (fun code operation => operation.given?.getD code) code

namespace Block

variable {θ α γ : Type} [DecidableEq θ] [DecidableEq γ] [Letter γ] [Add α] [Sub α] [Mul α] [Div α] [Neg α] [LT α]
  [DecidableLT α] [LE α] [DecidableLE α] [OfNat α 0] [OfNat α 1] [OfNat α 2] [FractionalPart α] {around : Surroundings θ α}
  {block : Block θ α γ}

/-- Only a text that is given changes the code. -/
theorem perform_code (coherent : Coherent around block) (operation : Operation θ α γ) :
    (block.perform around operation).1.code = (operation.given?.map Text.normalize).getD block.code := by
  cases operation with
  | setCode code =>
    simp only [perform, setCode, Operation.given?, Option.map_some, Option.getD_some]
    split
    next same => exact same.symm
    next => rfl
  | setLanguage _ | setDialect _ | setFallback _ =>
    simp only [perform, setLanguage, setDialect, setFallback]
    split <;> rfl
  | setTheme _ | tween _ _ _ => rfl
  | advance delta =>
    simp only [perform, Block.advance]
    split
    · rfl
    split <;> rfl
  | clusters | size _ | draw _ =>
    have same : (block.clusters around).block.dropTree.code = block.dropTree.code := congrArg Block.code coherent.clusters.2.2
    exact same

theorem run_code (coherent : Coherent around block) {code : List γ} (stored : block.code = Text.normalize code)
    (operations : List (Operation θ α γ)) : (block.run around operations).code = Text.normalize (lastGiven code operations) := by
  induction operations generalizing block code with
  | nil => exact stored
  | cons operation others ih =>
    refine ih (coherent.perform operation) ?_
    rw [perform_code coherent operation, stored]
    exact Option.getD_map ..

/-- A block keeps what it was given last, and with it a carriage return before a line feed exactly if a
line that is kept, and that another one follows, ends in one when line ends have been unified, and is
more than the indentation. Two carriage returns before a line feed lead to that, unless their line
is dropped or taken away, and nothing else does. -/
theorem line_ends_unified_iff (around : Surroundings θ α) (theme : θ) (code : List Char) (language : Language)
    (dialect : String) (fallback : Option String) (operations : List (Operation θ α)) :
    let stored := ((create theme code language dialect fallback).run around operations).code
    let given := lastGiven code operations
    let unified := Text.unifyLineEnds given
    stored = Text.normalize given ∧
      (['\r', '\n'] <:+: stored ↔
        ∃ line ∈ (Text.keptLines unified).dropLast, line.getLast? = some '\r' ∧ line ≠ Text.takenIndent unified) ∧
      (['\r', '\n'] <:+: stored → ['\r', '\r', '\n'] <:+: given) ∧
      (Text.opensBlank given = false → ['\r', '\r', '\n'] <:+: given → ['\r', '\n'] <:+: stored) := by
  intro stored given unified
  have kept : stored = Text.unindent unified := run_code ((sound_of_empty around rfl rfl).coherent rfl) rfl operations
  rw [← Text.returnFeed_unifyLineEnds_iff, kept]
  refine ⟨rfl, Text.returnFeed_unindent_iff unified, Text.returnFeed_of_unindent, fun solid held => ?_⟩
  rw [Text.unindent_of_solid ((Text.opensBlank_unifyLineEnds given).trans solid)]
  exact held

/-- The second text takes the place of one that kept a carriage return. -/
theorem line_ends_unified_iff_replaced :
    let around : Surroundings Unit Rat := ⟨.builtin, fun _ => ⟨"plain", some ⟨[]⟩, none⟩, ⟨fun _ => ⟨0, 0, 0⟩, fun _ => ""⟩⟩
    let operations : List (Operation Unit Rat) := [.clusters, .setCode "\r\n\ta\r\n\tb".toList]
    let stored := ((create () "a\r\r\nb".toList .javascript "" none).run around operations).code
    stored = "a\nb".toList ∧ ¬ ['\r', '\n'] <:+: stored := by
  intro around operations stored
  obtain ⟨same, -, only, -⟩ := line_ends_unified_iff around () "a\r\r\nb".toList .javascript "" none operations
  have single : ¬ ['\r', '\r', '\n'] <:+: "\r\n\ta\r\n\tb".toList := by simp [List.infix_cons_iff]
  have unified : Text.normalize "\r\n\ta\r\n\tb".toList = "a\nb".toList := by decide
  exact ⟨same.trans unified, fun held => single (only held)⟩

/-- Of two carriage returns before a line feed one stays. -/
theorem return_stays_before_feed :
    ¬ ∀ (around : Surroundings Unit Rat) (block : Block Unit Rat), Reachable around block → ¬ ['\r', '\n'] <:+: block.code := by
  intro law
  let around : Surroundings Unit Rat := ⟨.builtin, fun _ => ⟨"plain", some ⟨[]⟩, none⟩, ⟨fun _ => ⟨0, 0, 0⟩, fun _ => ""⟩⟩
  have stored : Text.normalize "a\r\r\nb".toList = "a\r\nb".toList := by decide
  refine law around (create () "a\r\r\nb".toList .javascript "" none) ⟨_, _, _, _, _, [], rfl⟩ ?_
  rw [create, stored]
  exact ⟨['a'], ['b'], rfl⟩

end Block

end Highlight
