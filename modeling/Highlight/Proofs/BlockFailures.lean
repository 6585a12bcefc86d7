import Highlight.Proofs.BlockLines
import Highlight.Proofs.BlockWork
import Highlight.Proofs.StoredCode

/-! What a missing grammar or a theme without rules does to a block. It shows nothing, or goes without the
colours of its old theme, and reports it when it parses or paints. Since nothing is parsed or painted
twice, a failure is reported once, and since what is shown depends on nothing of the past, no trace of
it is left when it is gone. -/

namespace Highlight

def Event.unparsed? {θ : Type} : Event θ → Option Language
  | noticed (.parseFailed language) => some language
  | _ => none

def Event.unpainted? {θ : Type} : Event θ → Option (Language × List CodePoint)
  | noticed (.highlightFailed language name) => some (language, name)
  | _ => none

theorem Event.unparsed?_eq_none {θ : Type} (event : Event θ) (other : event.ofParsing = false) : event.unparsed? = none := by
  cases event with
  | parsed | painted _ => rfl
  | noticed notice =>
    cases notice with
    | parseFailed language => cases other
    | _ => rfl

namespace Block

variable {θ α γ : Type} [Letter γ] {around : Surroundings θ α} {block after : Block θ α γ} {theme : θ}

private theorem isSome_freshTree : (block.freshTree around).isSome = (around.registry.grammar? block.language).isSome := by
  rw [freshTree, Registry.parse]
  cases around.registry.grammar? block.language <;> rfl

private theorem freshStream_of_fails (fails : block.fails around theme = true) : block.freshStream around theme = [] := by
  unfold freshStream
  cases tree : block.freshTree around with
  | none => rfl
  | some tokens =>
    simp only [paintStream, (fails_iff tree _ {}).mp fails]

private theorem shows_unpainted (fallback : Option String) (text : List γ) :
    Shows (Piece.clusters (Piece.merge (Piece.unpainted fallback text))) text := by
  have shows := Shows.segment (text.map fun c => (c, fallback))
  rwa [List.map_map, Function.comp_def, List.map_id', Piece.segment, List.map_map] at shows

private theorem freshStream_of_not_fails {grammar : Grammar} (known : around.registry.grammar? block.language = some grammar)
    (fine : block.fails around theme = false) : Shows (block.freshStream around theme) block.code := by
  cases ruled : (around.theme theme).rules with
  | some rules => exact freshStream_shows known ruled
  | none =>
    -- nothing is to be looked up, so the code is shown in the fallback colour
    have tree : block.freshTree around = some (grammar.tokens block.dialect (Letter.chars block.code)) := by
      rw [freshTree, Registry.parse, known]
      rfl
    have nothing : (classRanges (grammar.tokens block.dialect (Letter.chars block.code))).isEmpty = true := by
      rw [isEmpty_classRanges]
      simpa [Block.fails, ruled, tree] using fine
    simp only [freshStream, tree, paintStream, Theme.paint, ruled, nothing, if_true]
    exact shows_unpainted _ _

private theorem freshStream_eq_nil_iff : block.freshStream around theme = [] ↔
    block.code = [] ∨ around.registry.grammar? block.language = none ∨ block.fails around theme = true := by
  cases known : around.registry.grammar? block.language with
  | none =>
    refine iff_of_true ?_ (Or.inr (Or.inl rfl))
    have unparsed : block.freshTree around = none := by
      rw [← Option.not_isSome_iff_eq_none, isSome_freshTree, known]
      exact Bool.false_ne_true
    rw [freshStream, unparsed]
  | some grammar =>
    cases fails : block.fails around theme with
    | true => exact iff_of_true (freshStream_of_fails fails) (Or.inr (Or.inr rfl))
    | false => simpa using (freshStream_of_not_fails known fails).eq_nil_iff

/-- The failures among some events are those of the themes that were painted in vain. -/
def Tells (around : Surroundings θ α) (block : Block θ α γ) (events : List (Event θ)) : Prop :=
  events.filterMap Event.unpainted? =
    ((paintings events).filter (block.fails around)).map fun theme => (block.language, (around.theme theme).name)

theorem Tells.append {first second : List (Event θ)} (one : Tells around block first) (other : Tells around block second) :
    Tells around block (first ++ second) := by
  unfold Tells paintings at *
  rw [List.filterMap_append, one, other, List.filterMap_append, List.filter_append, List.map_append]

variable [DecidableEq θ] [DecidableEq γ]

variable [Add α] [Sub α] [Mul α] [Div α] [Neg α] [LT α] [DecidableLT α] [LE α] [DecidableLE α]
  [OfNat α 0] [OfNat α 1] [OfNat α 2] [FractionalPart α] {operation : Operation θ α γ}

/-- A block in which something has just come to differ from what it was before: it is new, or the last
operation has changed it. -/
def Begins (around : Surroundings θ α) (same : Block θ α γ → Block θ α γ → Prop) (block : Block θ α γ) : Prop :=
  (∃ theme code language dialect fallback, block = create theme code language dialect fallback) ∨
    ∃ earlier operation, Reachable around earlier ∧ block = (earlier.perform around operation).1 ∧ ¬same earlier block

theorem Begins.reachable {same : Block θ α γ → Block θ α γ → Prop} (begins : Begins around same block) : Reachable around block := by
  obtain ⟨theme, code, language, dialect, fallback, rfl⟩ | ⟨earlier, operation, reached, rfl, -⟩ := begins
  · exact ⟨theme, code, language, dialect, fallback, [], rfl⟩
  · exact reached.perform operation

theorem Begins.tree (begins : Begins around ParsedAlike block) : block.tree = none := by
  obtain ⟨theme, code, language, dialect, fallback, rfl⟩ | ⟨earlier, operation, reached, rfl, other⟩ := begins
  · rfl
  cases reads : operation.reads with
  | true => exact absurd (PaintedAlike.of_dropTree_eq (reached.reading_frame reads)).toParsedAlike other
  | false => exact (perform_step reads).tree_rewritten other

theorem Begins.unknown
    (begins : Begins around (fun earlier block => PaintedAlike earlier block ∧ earlier.isLive theme = true) block) :
    theme ∉ block.known := by
  obtain ⟨_, code, language, dialect, fallback, rfl⟩ | ⟨earlier, operation, reached, rfl, other⟩ := begins
  · exact List.not_mem_nil
  cases reads : operation.reads with
  | true =>
    -- a reading takes no theme into use
    have frame := reached.reading_frame reads
    intro inside
    have live := (reached.perform operation).tidy.live theme inside
    rw [isLive_of_dropTree_eq frame] at live
    exact other ⟨.of_dropTree_eq frame, live⟩
  | false =>
    intro inside
    by_cases alike : PaintedAlike earlier (earlier.perform around operation).1
    · have before := (((perform_step reads).known reached.tidy alike theme).mp inside).1
      exact other ⟨alike, reached.tidy.live theme before⟩
    · rw [(perform_step reads).known_recoloured alike] at inside
      cases inside

theorem Coherent.eq_nil_iff (coherent : Coherent around block) : (block.clusters around).value = [] ↔
    block.code = [] ∨ around.registry.grammar? block.language = none ∨ block.fails around block.theme = true := by
  rw [← freshStream_eq_nil_iff, ← List.map_eq_nil_iff (f := Piece.text), coherent.texts, List.map_eq_nil_iff]

theorem Reachable.normalized (reached : Reachable around block) : ∃ raw, Text.normalize raw = block.code := by
  obtain ⟨theme, code, language, dialect, fallback, operations, rfl⟩ := reached
  exact ⟨lastGiven code operations, (run_code ((sound_of_empty around rfl rfl).coherent rfl) rfl operations).symm⟩

/-- A missing grammar is reported when the code is first read. -/
theorem Begins.unparsed (begins : Begins around ParsedAlike block) {operations : List (Operation θ α γ)}
    (steady : ∀ moment ∈ block.moments around operations, ParsedAlike block moment) :
    (block.log around operations).filterMap Event.unparsed? =
      if around.registry.grammar? block.language = none ∧ operations.any Operation.reads then [block.language] else [] := by
  rw [(parsing_in_stretch Event.unparsed?_eq_none begins.reachable steady).1, begins.tree, parseEvents, isSome_freshTree]
  cases around.registry.grammar? block.language <;> cases operations.any Operation.reads <;> rfl

/-- A theme that stays in use is painted when the code is first read. -/
theorem Begins.painted (begins : Begins around (fun earlier block => PaintedAlike earlier block ∧ earlier.isLive theme = true) block)
    {operations : List (Operation θ α γ)}
    (steady : ∀ moment ∈ block.moments around operations, PaintedAlike block moment ∧ moment.isLive theme = true) :
    (Highlight.paintings (block.log around operations)).filter (· = theme) =
      if around.registry.grammar? block.language ≠ none ∧ operations.any Operation.reads then [theme] else [] := by
  rw [(paintings_in_stretch begins.reachable steady).1, if_neg begins.unknown, isSome_freshTree]
  cases around.registry.grammar? block.language <;> cases operations.any Operation.reads <;> rfl

end Block

end Highlight
