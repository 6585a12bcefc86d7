import Highlight.Proofs.BlockCaches

/-! Parsing and painting over a whole run. Between two readings a stream can only be lost in two ways:
the code is to be painted otherwise, or its theme goes out of use. Neither happens in a stretch of a
run in which the code stands and the theme stays in use, so there a theme is painted once. -/

namespace Highlight

/-- A tick that does not end a transition leaves its old theme. -/
theorem Transition.tick_oldTheme {θ α : Type} [Add α] [Div α] [LT α] [DecidableLT α] [LE α] [DecidableLE α] [OfNat α 1]
    {transition later : Transition θ α} {delta : α} (ticked : transition.tick delta = (later, .ok true)) :
    later.phase.oldTheme? = transition.phase.oldTheme? := by
  unfold Transition.tick at ticked
  split at ticked
  · cases ticked
  next oldTheme progress running =>
    dsimp only at ticked
    split at ticked
    · cases ticked
    split at ticked
    · cases ticked
      rw [running]
      rfl
    · cases ticked

namespace Block

variable {θ α γ : Type} [DecidableEq θ] {around : Surroundings θ α} {block after : Block θ α γ} {theme : θ}

/-- What an operation that reads nothing can do to a block. Its caches are emptied as a whole, or
lose what is no longer in use, or stay. -/
inductive Step (block : Block θ α γ) : Block θ α γ → Prop
  | same : Step block block
  | rewritten {after : Block θ α γ} (other : ¬ParsedAlike block after) (tree : after.tree = none)
      (streams : after.streams = []) (final : after.final = none) : Step block after
  | recoloured {after : Block θ α γ} (alike : ParsedAlike block after) (other : ¬PaintedAlike block after)
      (tree : after.tree = block.tree) (streams : after.streams = []) (final : after.final = none) : Step block after
  | switched (theme : θ) (transition : Transition θ α) :
      Step block (prune { block with transition := transition, theme := theme, final := none })
  | waited (transition : Transition θ α) (final : Option (List (Piece γ)))
      (old : transition.phase.oldTheme? = block.transition.phase.oldTheme?) (kept : final = none ∨ final = block.final) :
      Step block { block with transition := transition, final := final }

private theorem isLive_waited {transition : Transition θ α} (final : Option (List (Piece γ)))
    (old : transition.phase.oldTheme? = block.transition.phase.oldTheme?) (theme : θ) :
    isLive { block with transition := transition, final := final } theme = block.isLive theme := by
  simp only [isLive, old]

theorem Step.tidy (step : Step block after) (tidy : Tidy block) : Tidy after := by
  cases step with
  | same => exact tidy
  | rewritten other tree streams final => exact tidy_of_empty streams final
  | recoloured alike other tree streams final => exact tidy_of_empty streams final
  | switched theme transition =>
    refine ⟨?_, ?_, fun unparsed => ⟨?_, rfl⟩, fun some => absurd rfl some⟩
    · rw [known_prune]
      exact tidy.distinct.filter _
    · rw [known_prune]
      exact fun other member => (List.mem_filter.mp member).2
    · have none : block.streams = [] := (tidy.rooted unparsed).1
      simp only [prune, none, List.filter_nil]
  | waited transition final old kept =>
    refine ⟨tidy.distinct, fun other member => ?_, fun unparsed => ⟨(tidy.rooted unparsed).1, ?_⟩, fun some other use => ?_⟩
    · rw [isLive_waited final old]
      exact tidy.live other member
    · exact kept.elim id fun same => same.trans (tidy.rooted unparsed).2
    · rw [isLive_waited final old] at use
      exact tidy.ready (fun none => some (kept.elim id fun same => same.trans none)) other use

/-- While the code is painted alike, a stream is lost only with its theme. -/
theorem Step.known (step : Step block after) (tidy : Tidy block) (alike : PaintedAlike block after) (theme : θ) :
    theme ∈ after.known ↔ theme ∈ block.known ∧ after.isLive theme = true := by
  cases step with
  | same => exact (and_iff_left_of_imp (tidy.live theme)).symm
  | rewritten other => exact absurd alike.toParsedAlike other
  | recoloured _ other => exact absurd alike other
  | switched other transition =>
    rw [known_prune, List.mem_filter]
    rfl
  | waited transition final old kept =>
    rw [isLive_waited final old]
    exact (and_iff_left_of_imp (tidy.live theme)).symm

theorem Step.tree (step : Step block after) (alike : ParsedAlike block after) : after.tree = block.tree := by
  cases step with
  | same | switched | waited => rfl
  | rewritten other => exact absurd alike other
  | recoloured _ _ tree => exact tree

theorem Step.tree_rewritten (step : Step block after) (other : ¬ParsedAlike block after) : after.tree = none := by
  cases step with
  | same => exact absurd (.refl block) other
  | rewritten _ tree => exact tree
  | recoloured alike => exact absurd alike other
  | switched | waited => exact absurd ⟨rfl, rfl, rfl⟩ other

theorem Step.known_recoloured (step : Step block after) (other : ¬PaintedAlike block after) : after.known = [] := by
  cases step with
  | same => exact absurd (.refl block) other
  | rewritten _ _ streams | recoloured _ _ _ streams => rw [Block.known, streams, List.map_nil]
  | switched | waited => exact absurd ⟨⟨rfl, rfl, rfl⟩, rfl⟩ other

private theorem advance_step [Add α] [Div α] [LT α] [DecidableLT α] [LE α] [DecidableLE α] [OfNat α 1] (delta : α) :
    Step block (block.advance delta).1 := by
  unfold Block.advance
  split
  · exact .same
  split
  next transition ticked => exact .waited transition none (Transition.tick_oldTheme ticked) (Or.inl rfl)
  next transition ticked => exact .switched block.theme transition
  next transition failed ticked =>
    exact .waited transition block.final (congrArg Phase.oldTheme? (Transition.tick_failed_phase ticked)) (Or.inr rfl)

variable [DecidableEq γ] [Letter γ] [Add α] [Sub α] [Mul α] [Div α] [Neg α] [LT α] [DecidableLT α] [LE α]
  [DecidableLE α] [OfNat α 0] [OfNat α 1] [OfNat α 2] [FractionalPart α] {operation : Operation θ α γ}

theorem perform_step (silent : operation.reads = false) : Step block (block.perform around operation).1 := by
  cases operation with
  | setCode code =>
    simp only [perform, setCode]
    split
    · exact .same
    next changed => exact .rewritten (fun alike => changed alike.code) rfl rfl rfl
  | setLanguage language =>
    simp only [perform, setLanguage]
    split
    · exact .same
    next changed => exact .rewritten (fun alike => changed alike.language) rfl rfl rfl
  | setDialect dialect =>
    simp only [perform, setDialect]
    split
    · exact .same
    next changed => exact .rewritten (fun alike => changed alike.dialect) rfl rfl rfl
  | setFallback fallback =>
    simp only [perform, setFallback]
    split
    · exact .same
    next changed => exact .recoloured ⟨rfl, rfl, rfl⟩ (fun alike => changed alike.fallback) rfl rfl rfl
  | setTheme theme => exact .switched theme _
  | tween theme duration easing => exact .switched theme _
  | advance delta => exact advance_step delta
  | clusters | size _ | draw _ => cases silent

/-- Without a reading nothing happens, except that a transition may be replaced. -/
theorem perform_events (silent : operation.reads = false) :
    ∀ event ∈ (block.perform around operation).2, ∃ name, event = .noticed (.replacedTransition name) := by
  cases operation with
  | setCode _ | setLanguage _ | setDialect _ | setFallback _ | setTheme _ | advance _ => exact fun _ none => absurd none List.not_mem_nil
  | tween theme duration easing =>
    intro event member
    obtain ⟨notice, inside, rfl⟩ := List.mem_map.mp member
    unfold Transition.startNotices at inside
    split at inside
    · exact ⟨_, congrArg _ (List.mem_singleton.mp inside)⟩
    · cases inside
  | clusters | size _ | draw _ => cases silent

theorem Reachable.tidy (reached : Reachable around block) : Tidy block := by
  have step : ∀ (block : Block θ α γ) (operation : Operation θ α γ), Coherent around block ∧ Tidy block →
      Coherent around (block.perform around operation).1 ∧ Tidy (block.perform around operation).1 := by
    rintro block operation ⟨coherent, tidy⟩
    refine ⟨coherent.perform operation, ?_⟩
    cases reads : operation.reads with
    | true =>
      rw [perform_of_reads reads]
      exact (coherent.reading tidy).tidy
    | false => exact (perform_step reads).tidy tidy
  obtain ⟨theme, code, language, dialect, fallback, operations, rfl⟩ := reached
  exact (run_keeps step ⟨(sound_of_empty around rfl rfl).coherent rfl, tidy_of_empty rfl rfl⟩ operations).2

theorem Reachable.reading (reached : Reachable around block) (reads : operation.reads = true) :
    Reading around block ⟨(block.clusters around).value, (block.perform around operation).1, (block.perform around operation).2⟩ := by
  rw [perform_of_reads reads]
  exact reached.coherent.reading reached.tidy

/-- A reading changes nothing but caches. -/
theorem Reachable.reading_frame (reached : Reachable around block) (reads : operation.reads = true) :
    (block.perform around operation).1.dropTree = block.dropTree := by
  rw [perform_of_reads reads]
  exact reached.coherent.clusters.2.2

theorem Reachable.paintings (reached : Reachable around block) (reads : operation.reads = true) :
    Highlight.paintings (block.perform around operation).2 = if (block.freshTree around).isSome then block.missing else [] :=
  (reached.reading reads).paintings

theorem filterMap_silent {β : Type} {work : Event θ → Option β} (idle : ∀ name, work (.noticed (.replacedTransition name)) = none)
    (silent : operation.reads = false) : (block.perform around operation).2.filterMap work = [] := by
  refine List.filterMap_eq_nil_iff.mpr fun event member => ?_
  obtain ⟨name, rfl⟩ := perform_events silent event member
  exact idle name

/-- Only readings paint, and only themes in use, whose streams are known from then on. -/
theorem Reachable.painted (reached : Reachable around block)
    (painted : theme ∈ Highlight.paintings (block.perform around operation).2) :
    operation.reads = true ∧ theme ∉ block.known ∧ theme ∈ (block.perform around operation).1.known := by
  cases reads : operation.reads with
  | true =>
    rw [reached.paintings reads] at painted
    split at painted
    · obtain ⟨live, unknown⟩ := mem_missing.mp painted
      exact ⟨rfl, unknown, ((reached.reading reads).known theme).mpr live⟩
    · cases painted
  | false =>
    rw [Highlight.paintings, filterMap_silent (fun _ => rfl) reads] at painted
    cases painted

theorem Reachable.filterMap_parsing {β : Type} {work : Event θ → Option β} (only : ∀ event, event.ofParsing = false → work event = none)
    (reached : Reachable around block) (reads : operation.reads = true) : (block.perform around operation).2.filterMap work =
      if block.tree.isSome then [] else (block.parseEvents around).filterMap work :=
  (reached.reading reads).filterMap_parsing only

theorem Reachable.parsings (reached : Reachable around block) (reads : operation.reads = true) :
    (block.perform around operation).2.filter Event.isParsed = if block.tree.isSome then [] else [.parsed] := by
  rw [← List.filterMap_eq_filter, reached.filterMap_parsing guard_isParsed reads, parseEvents]
  split
  · rfl
  split <;> rfl

/-- Only readings parse, and only if that has not been done. -/
theorem Reachable.parsed (reached : Reachable around block) (parsed : (block.perform around operation).2.any Event.isParsed = true) :
    operation.reads = true ∧ block.tree = none ∧ (block.perform around operation).1.tree ≠ none := by
  obtain ⟨event, member, parses⟩ := List.any_eq_true.mp parsed
  cases reads : operation.reads with
  | true =>
    refine ⟨rfl, ?_, (reached.reading reads).parsed⟩
    have kept : event ∈ (block.perform around operation).2.filter Event.isParsed := List.mem_filter.mpr ⟨member, parses⟩
    rw [reached.parsings reads] at kept
    split at kept
    · cases kept
    next unparsed => exact Option.not_isSome_iff_eq_none.mp unparsed
  | false =>
    obtain ⟨name, rfl⟩ := perform_events reads event member
    cases parses

/-- While the code stands and a theme stays in use, its stream is painted by the first reading. -/
theorem paintings_in_stretch (reached : Reachable around block) {operations : List (Operation θ α γ)}
    (steady : ∀ moment ∈ block.moments around operations, PaintedAlike block moment ∧ moment.isLive theme = true) :
    (Highlight.paintings (block.log around operations)).filter (· = theme) =
        (if theme ∈ block.known then [] else if operations.any Operation.reads then
          if (block.freshTree around).isSome then [theme] else [] else []) ∧
      (theme ∈ (block.run around operations).known ↔ theme ∈ block.known ∨ operations.any Operation.reads = true) := by
  have reading : ∀ (moment : Block θ α γ) operation, Reachable around moment →
      PaintedAlike block moment ∧ moment.isLive theme = true → operation.reads = true →
      (moment.perform around operation).2.filterMap (fun event => event.painted?.filter (· = theme)) =
          (if decide (theme ∈ moment.known) then [] else if (block.freshTree around).isSome then [theme] else []) ∧
        decide (theme ∈ (moment.perform around operation).1.known) = true := by
    rintro moment operation reached ⟨alike, live⟩ reads
    refine ⟨?_, decide_eq_true (((reached.reading reads).known theme).mpr live)⟩
    rw [← List.filter_filterMap, ← Highlight.paintings, reached.paintings reads, alike.freshTree]
    split
    · simp only [filter_missing live, decide_eq_true_eq]
    · simp only [List.filter_nil, ite_self]
  have silent : ∀ (moment : Block θ α γ) operation, Reachable around moment →
      PaintedAlike block moment ∧ moment.isLive theme = true →
      PaintedAlike block (moment.perform around operation).1 ∧ (moment.perform around operation).1.isLive theme = true →
      operation.reads = false →
      (moment.perform around operation).2.filterMap (fun event => event.painted?.filter (· = theme)) = [] ∧
        decide (theme ∈ (moment.perform around operation).1.known) = decide (theme ∈ moment.known) := by
    rintro moment operation reached ⟨alike, live⟩ ⟨later, use⟩ silent
    refine ⟨filterMap_silent (fun _ => rfl) silent, decide_eq_decide.mpr ?_⟩
    rw [(perform_step silent).known reached.tidy (alike.between later)]
    exact and_iff_left use
  obtain ⟨painted, known⟩ := work_in_stretch reading silent reached steady
  rw [Highlight.paintings, List.filter_filterMap, painted]
  simp only [decide_eq_true_eq, true_and]
  rw [← decide_eq_true_iff (p := theme ∈ (block.run around operations).known), known, Bool.or_eq_true, decide_eq_true_eq]

/-- While the code stands it is parsed by the first reading. -/
theorem parsing_in_stretch {β : Type} {work : Event θ → Option β} (only : ∀ event, event.ofParsing = false → work event = none)
    (reached : Reachable around block) {operations : List (Operation θ α γ)}
    (steady : ∀ moment ∈ block.moments around operations, ParsedAlike block moment) :
    (block.log around operations).filterMap work = (if block.tree.isSome then [] else
        if operations.any Operation.reads then (block.parseEvents around).filterMap work else []) ∧
      (block.run around operations).tree.isSome = (block.tree.isSome || operations.any Operation.reads) := by
  have reading : ∀ (moment : Block θ α γ) operation, Reachable around moment → ParsedAlike block moment → operation.reads = true →
      (moment.perform around operation).2.filterMap work =
          (if moment.tree.isSome then [] else (block.parseEvents around).filterMap work) ∧
        (moment.perform around operation).1.tree.isSome = true := by
    intro moment operation reached alike reads
    refine ⟨?_, Option.isSome_iff_ne_none.mpr (reached.reading reads).parsed⟩
    rw [reached.filterMap_parsing only reads, alike.parseEvents]
  have silent : ∀ (moment : Block θ α γ) operation, Reachable around moment → ParsedAlike block moment →
      ParsedAlike block (moment.perform around operation).1 → operation.reads = false →
      (moment.perform around operation).2.filterMap work = [] ∧
        (moment.perform around operation).1.tree.isSome = moment.tree.isSome := by
    intro moment operation reached alike later silent
    exact ⟨filterMap_silent (fun name => only _ rfl) silent, congrArg _ ((perform_step silent).tree (alike.between later))⟩
  exact work_in_stretch reading silent reached steady

end Block

end Highlight
