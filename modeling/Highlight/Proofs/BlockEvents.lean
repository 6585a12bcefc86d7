import Highlight.Proofs.BlockCoherence
import Highlight.Proofs.DocumentTiling
import Highlight.Proofs.Painting

/-! What parsing, painting and blending have to tell. Parsing tells the same for blocks with one code,
language and dialect, and painting for those with one fallback colour besides. -/

namespace Highlight

def Event.painted? {θ : Type} : Event θ → Option θ
  | painted theme => some theme
  | _ => none

def Event.isParsed {θ : Type} : Event θ → Bool
  | parsed => true
  | _ => false

def Event.ofParsing {θ : Type} : Event θ → Bool
  | parsed | noticed (.parseFailed _) => true
  | _ => false

theorem guard_isParsed {θ : Type} (event : Event θ) (other : event.ofParsing = false) : Option.guard Event.isParsed event = none := by
  cases event with
  | parsed => cases other
  | painted _ | noticed _ => rfl

def paintings {θ : Type} (events : List (Event θ)) : List θ := events.filterMap Event.painted?

theorem paintings_notices {θ : Type} (notices : List Notice) : paintings (notices.map (.noticed : Notice → Event θ)) = [] := by
  simp [paintings, List.filterMap_map, Function.comp_def, Event.painted?]

theorem mem_blendNotices {γ : Type} [DecidableEq γ] [Letter γ] {new old : List (Piece γ)} {notice : Notice} (member : notice ∈ blendNotices new old) :
    (∃ first second, notice = .streamLengths first second) ∨ ∃ index first second, notice = .streamTexts index first second := by
  unfold blendNotices at member
  rcases List.mem_append.mp member with lengths | texts
  · split at lengths
    · cases lengths
    · exact Or.inl ⟨_, _, List.mem_singleton.mp lengths⟩
  · split at texts
    · exact Or.inr ⟨_, _, _, List.mem_singleton.mp texts⟩
    · cases texts

theorem isEmpty_classRanges (tokens : List Token) :
    (classRanges tokens).isEmpty = !tokens.any fun token => !token.text.isEmpty := by
  rw [classRanges_eq, List.isEmpty_map, Bool.eq_iff_iff, List.isEmpty_iff, List.filter_eq_nil_iff]
  simp

/-- Painting fails where something is to be looked up and there are no rules. -/
theorem Theme.paint_eq_error_iff {γ : Type} {theme : Theme} {fallback : Option String} {text : List γ} {tokens : List Token} {failed : NoRules} :
    theme.paint fallback text (classRanges tokens) = .error failed ↔
      (theme.rules.isNone && tokens.any fun token => !token.text.isEmpty) = true := by
  unfold Theme.paint
  cases theme.rules with
  | some rules => simp
  | none =>
    simp only [isEmpty_classRanges]
    cases tokens.any fun token => !token.text.isEmpty <;> simp

namespace Block

variable {θ α γ : Type}

structure ParsedAlike (first second : Block θ α γ) : Prop where
  code : second.code = first.code
  language : second.language = first.language
  dialect : second.dialect = first.dialect

structure PaintedAlike (first second : Block θ α γ) : Prop extends ParsedAlike first second where
  fallback : second.fallback = first.fallback

instance [DecidableEq γ] (first second : Block θ α γ) : Decidable (ParsedAlike first second) :=
  decidable_of_iff (second.code = first.code ∧ second.language = first.language ∧ second.dialect = first.dialect)
    ⟨fun ⟨code, language, dialect⟩ => ⟨code, language, dialect⟩, fun alike => ⟨alike.code, alike.language, alike.dialect⟩⟩

instance [DecidableEq γ] (first second : Block θ α γ) : Decidable (PaintedAlike first second) :=
  decidable_of_iff (ParsedAlike first second ∧ second.fallback = first.fallback)
    ⟨fun ⟨alike, fallback⟩ => ⟨alike, fallback⟩, fun alike => ⟨alike.toParsedAlike, alike.fallback⟩⟩

variable {around : Surroundings θ α} {block after : Block θ α γ} {theme : θ}

theorem ParsedAlike.refl (block : Block θ α γ) : ParsedAlike block block := ⟨rfl, rfl, rfl⟩

theorem PaintedAlike.refl (block : Block θ α γ) : PaintedAlike block block := ⟨.refl block, rfl⟩

theorem ParsedAlike.between {origin : Block θ α γ} (here : ParsedAlike origin block) (there : ParsedAlike origin after) :
    ParsedAlike block after :=
  ⟨there.code.trans here.code.symm, there.language.trans here.language.symm, there.dialect.trans here.dialect.symm⟩

theorem PaintedAlike.between {origin : Block θ α γ} (here : PaintedAlike origin block) (there : PaintedAlike origin after) :
    PaintedAlike block after :=
  ⟨here.toParsedAlike.between there.toParsedAlike, there.fallback.trans here.fallback.symm⟩

theorem PaintedAlike.of_dropTree_eq (same : after.dropTree = block.dropTree) : PaintedAlike block after :=
  ⟨⟨congrArg (fun block => block.code) same, congrArg (fun block => block.language) same,
    congrArg (fun block => block.dialect) same⟩, congrArg (fun block => block.fallback) same⟩

variable [Letter γ]

theorem ParsedAlike.freshTree (alike : ParsedAlike block after) : after.freshTree around = block.freshTree around := by
  rw [Block.freshTree, Block.freshTree, alike.code, alike.language, alike.dialect]

theorem PaintedAlike.freshStream (alike : PaintedAlike block after) (theme : θ) :
    after.freshStream around theme = block.freshStream around theme := by
  simp only [Block.freshStream, alike.freshTree, paintStream, fallbackFor, alike.code, alike.language, alike.fallback]

def paintEvents (around : Surroundings θ α) (block : Block θ α γ) (theme : θ) : List (Event θ) :=
  match block.freshTree around with
  | some tokens => (paintStream around block theme tokens).2
  | none => []

theorem PaintedAlike.paintEvents (alike : PaintedAlike block after) (theme : θ) :
    after.paintEvents around theme = block.paintEvents around theme := by
  simp only [Block.paintEvents, alike.freshTree, paintStream, fallbackFor, alike.code, alike.language, alike.fallback]

/-- Whether a theme fails on the code. It does if it has no rules and something is to be looked up. -/
def fails (around : Surroundings θ α) (block : Block θ α γ) (theme : θ) : Bool :=
  (around.theme theme).rules.isNone && ((block.freshTree around).getD []).any fun token => !token.text.isEmpty

theorem ParsedAlike.fails (alike : ParsedAlike block after) : after.fails around = block.fails around := by
  funext theme
  rw [Block.fails, Block.fails, alike.freshTree]

theorem fails_iff {tokens : List Token} (tree : block.freshTree around = some tokens) (fallback : Option String) (failed : NoRules) :
    block.fails around theme = true ↔ (around.theme theme).paint fallback block.code (classRanges tokens) = .error failed := by
  rw [Theme.paint_eq_error_iff, fails, tree, Option.getD_some]

/-- Painting either fails, and says so, or has only missing colours to report. -/
theorem paintEvents_cases (around : Surroundings θ α) (block : Block θ α γ) (theme : θ) :
    (block.freshTree around = none ∧ block.paintEvents around theme = []) ∨
      ((block.freshTree around).isSome = true ∧ ∃ notices, block.paintEvents around theme = .painted theme :: notices.map .noticed ∧
        ((block.fails around theme = true ∧ notices = [.highlightFailed block.language (around.theme theme).name]) ∨
          (block.fails around theme = false ∧
            ∀ notice ∈ notices, (∃ classList, notice = .unknownClass classList) ∨ ∃ count, notice = .coloured count))) := by
  unfold paintEvents
  cases tree : block.freshTree around with
  | none => exact Or.inl ⟨rfl, rfl⟩
  | some tokens =>
    refine Or.inr ⟨rfl, ?_⟩
    simp only [paintStream]
    split
    next cells notices painted =>
      refine ⟨notices, rfl, Or.inr ⟨Bool.eq_false_iff.mpr fun fails => ?_, Theme.paint_notices painted⟩⟩
      rw [(fails_iff tree _ {}).mp fails] at painted
      cases painted
    next failed found => exact ⟨_, rfl, Or.inl ⟨(fails_iff tree _ failed).mpr found, rfl⟩⟩

theorem paintings_paintEvents (around : Surroundings θ α) (block : Block θ α γ) (theme : θ) :
    paintings (block.paintEvents around theme) = if (block.freshTree around).isSome then [theme] else [] := by
  obtain ⟨unparsed, nothing⟩ | ⟨parsed, notices, events, -⟩ := paintEvents_cases around block theme
  · rw [nothing, unparsed]
    rfl
  · rw [events, if_pos parsed]
    exact congrArg (theme :: ·) (paintings_notices notices)

theorem ofParsing_paintEvents : ∀ event ∈ block.paintEvents around theme, event.ofParsing = false := by
  obtain ⟨-, nothing⟩ | ⟨-, notices, events, reports⟩ := paintEvents_cases around block theme
  · rw [nothing]
    exact fun _ none => absurd none List.not_mem_nil
  · rw [events]
    refine List.forall_mem_cons.mpr ⟨rfl, fun event member => ?_⟩
    obtain ⟨notice, inside, rfl⟩ := List.mem_map.mp member
    obtain ⟨-, rfl⟩ | ⟨-, plain⟩ := reports
    · rw [List.mem_singleton.mp inside]
      rfl
    · obtain ⟨_, rfl⟩ | ⟨_, rfl⟩ := plain notice inside <;> rfl

theorem ofParsing_blendNotices [DecidableEq γ] (new old : List (Piece γ)) :
    ∀ event ∈ (blendNotices new old).map (.noticed : Notice → Event θ), event.ofParsing = false := by
  intro event member
  obtain ⟨notice, inside, rfl⟩ := List.mem_map.mp member
  obtain ⟨_, _, rfl⟩ | ⟨_, _, _, rfl⟩ := mem_blendNotices inside <;> rfl

def parseEvents (around : Surroundings θ α) (block : Block θ α γ) : List (Event θ) :=
  if (block.freshTree around).isSome then [.parsed] else [.parsed, .noticed (.parseFailed block.language)]

theorem ParsedAlike.parseEvents (alike : ParsedAlike block after) : after.parseEvents around = block.parseEvents around := by
  rw [Block.parseEvents, Block.parseEvents, alike.freshTree, alike.language]

theorem parsed_events (around : Surroundings θ α) (block : Block θ α γ) :
    (block.parsed around).events = if block.tree.isSome then [] else block.parseEvents around := by
  unfold Block.parsed parseEvents freshTree
  cases block.tree with
  | some tree => rfl
  | none => cases around.registry.parse block.language block.dialect (Letter.chars block.code) <;> rfl

theorem paintings_parsed (block : Block θ α γ) : paintings (block.parsed around).events = [] := by
  rw [parsed_events, parseEvents]
  split
  · rfl
  split <;> rfl

end Block

end Highlight
