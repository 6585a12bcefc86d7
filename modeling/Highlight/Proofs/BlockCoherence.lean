import Highlight.Proofs.BlockRuns

/-! The caches of a block never tell anything else than computing anew would. What is computed
anew depends on the fields of a block only, so it is enough that every operation which changes
a field drops, or has dropped, the caches that depend on it. -/

namespace Highlight

/-- A tick whose easing fails counts its time but leaves the phase alone. -/
theorem Transition.tick_failed_phase {θ α : Type} [Add α] [Div α] [LT α] [DecidableLT α] [LE α] [DecidableLE α]
    [OfNat α 1] {transition later : Transition θ α} {delta : α} {failed : EasingFailed}
    (ticked : transition.tick delta = (later, .error failed)) : later.phase = transition.phase := by
  unfold Transition.tick at ticked
  split at ticked
  · cases ticked
  dsimp only at ticked
  split at ticked
  · cases ticked
  split at ticked
  · cases ticked
  · cases ticked
    rfl

namespace Block

variable {θ α γ : Type} [Letter γ]

def freshTree (around : Surroundings θ α) (block : Block θ α γ) : Option (List Token) :=
  (around.registry.parse block.language block.dialect (Letter.chars block.code)).toOption

def freshStream (around : Surroundings θ α) (block : Block θ α γ) (theme : θ) : List (Piece γ) :=
  match block.freshTree around with
  | some tokens => (paintStream around block theme tokens).1
  | none => []

structure Sound (around : Surroundings θ α) (block : Block θ α γ) : Prop where
  tree : ∀ tree, block.tree = some tree → tree = block.freshTree around
  streams : ∀ entry ∈ block.streams, entry.2 = block.freshStream around entry.1

/-- Fewer streams are as sound, under any themes and any transition: neither is in a stream. -/
theorem Sound.transfer {around : Surroundings θ α} {block other : Block θ α γ} (sound : Sound around block)
    (code : other.code = block.code) (language : other.language = block.language)
    (dialect : other.dialect = block.dialect) (fallback : other.fallback = block.fallback)
    (tree : other.tree = block.tree) (streams : ∀ entry ∈ other.streams, entry ∈ block.streams) :
    Sound around other := by
  have sameTree : other.freshTree around = block.freshTree around := by
    rw [freshTree, freshTree, code, language, dialect]
  have sameStream : ∀ theme, other.freshStream around theme = block.freshStream around theme := by
    intro theme
    simp only [freshStream, sameTree, paintStream, fallbackFor, code, language, fallback]
  refine ⟨?_, ?_⟩
  · rw [tree, sameTree]
    exact sound.tree
  · intro entry member
    rw [sameStream]
    exact sound.streams entry (streams entry member)

theorem Sound.retime {around : Surroundings θ α} {block : Block θ α γ} (sound : Sound around block) (theme : θ)
    (transition : Transition θ α) (final : Option (List (Piece γ))) :
    Sound around { block with theme := theme, transition := transition, final := final } :=
  sound.transfer rfl rfl rfl rfl rfl fun _ member => member

theorem sound_of_empty (around : Surroundings θ α) {block : Block θ α γ} (tree : block.tree = none)
    (streams : block.streams = []) : Sound around block := by
  refine ⟨?_, ?_⟩
  · intro known found
    rw [tree] at found
    cases found
  · intro entry member
    rw [streams] at member
    cases member

theorem Sound.parsed {around : Surroundings θ α} {block : Block θ α γ} (sound : Sound around block) :
    (block.parsed around).value = block.freshTree around ∧
      (block.parsed around).block = { block with tree := some (block.freshTree around) } := by
  obtain ⟨code, language, dialect, fallback, theme, transition, tree, streams, final⟩ := block
  cases tree with
  | some tree =>
    have same := sound.tree tree rfl
    exact ⟨same, congrArg (fun tree => Block.mk code language dialect fallback theme transition tree streams final) (congrArg some same)⟩
  | none =>
    simp only [Block.parsed, freshTree]
    cases around.registry.parse language dialect (Letter.chars code) with
    | ok tokens => exact ⟨rfl, rfl⟩
    | error missing => exact ⟨rfl, rfl⟩

section
variable [DecidableEq θ]

theorem Sound.prune {around : Surroundings θ α} {block : Block θ α γ} (sound : Sound around block) :
    Sound around block.prune :=
  sound.transfer rfl rfl rfl rfl rfl fun _ member => (List.mem_filter.mp member).1

theorem Sound.lookup {around : Surroundings θ α} {block : Block θ α γ} (sound : Sound around block)
    {theme : θ} {pieces : List (Piece γ)} (found : block.streams.lookup theme = some pieces) :
    pieces = block.freshStream around theme := by
  obtain ⟨before, after, split, _⟩ := List.lookup_eq_some_iff.mp found
  exact sound.streams (theme, pieces) (by rw [split]; exact List.mem_append_right _ (List.mem_cons_self ..))

/-- A stream that is not known is painted from the tree and kept. -/
theorem Sound.stream_unknown {around : Surroundings θ α} {block : Block θ α γ} (sound : Sound around block)
    {theme : θ} (unknown : block.streams.lookup theme = none) :
    (block.stream around theme).value = block.freshStream around theme ∧
      (block.stream around theme).block = { block with
        tree := some (block.freshTree around)
        streams := (theme, block.freshStream around theme) :: block.streams } := by
  obtain ⟨value, after⟩ := sound.parsed
  simp only [Block.stream, unknown, value, after, freshStream]
  cases block.freshTree around with
  | none => exact ⟨rfl, rfl⟩
  | some tokens => exact ⟨rfl, rfl⟩

/-- Asking for a stream changes nothing but caches. -/
theorem Sound.stream {around : Surroundings θ α} {block : Block θ α γ} (sound : Sound around block) (theme : θ) :
    (block.stream around theme).value = block.freshStream around theme ∧
      Sound around (block.stream around theme).block ∧
      (block.stream around theme).block.dropTree = block.dropTree := by
  cases known : block.streams.lookup theme with
  | some pieces =>
    simp only [Block.stream, known, and_true]
    exact ⟨sound.lookup known, sound⟩
  | none =>
    obtain ⟨value, after⟩ := sound.stream_unknown known
    rw [after]
    refine ⟨value, ⟨?_, ?_⟩, rfl⟩
    · intro tree found
      exact (Option.some.inj found).symm
    · intro entry member
      rcases List.mem_cons.mp member with rfl | older
      · rfl
      · exact sound.streams entry older

end

variable [DecidableEq γ] [Add α] [Sub α] [Mul α] [Div α] [Neg α] [LT α] [DecidableLT α] [LE α] [DecidableLE α]
  [OfNat α 0] [OfNat α 1] [OfNat α 2] [FractionalPart α]

/-- What a block shows, from its fields alone. -/
def freshClusters (around : Surroundings θ α) (block : Block θ α γ) : List (Piece γ) :=
  match block.transition.phase with
  | .idle => block.freshStream around block.theme
  | .running oldTheme progress =>
    (blend around.colors (block.freshStream around block.theme) (block.freshStream around oldTheme) (some progress)).1

structure Coherent (around : Surroundings θ α) (block : Block θ α γ) : Prop where
  sound : Sound around block
  final : ∀ pieces, block.final = some pieces → pieces = block.freshClusters around

variable {around : Surroundings θ α} {block : Block θ α γ}

theorem Sound.coherent (sound : Sound around block) (unknown : block.final = none) : Coherent around block := by
  refine ⟨sound, ?_⟩
  intro pieces found
  rw [unknown] at found
  cases found

theorem Sound.keep {pieces : List (Piece γ)} (sound : Sound around block) (same : pieces = block.freshClusters around) :
    Coherent around { block with final := some pieces } := by
  refine ⟨sound.retime block.theme block.transition _, ?_⟩
  intro kept found
  exact (Option.some.inj found).symm.trans same

/-- What is computed anew does not look at caches. -/
theorem fresh_of_dropTree_eq {first second : Block θ α γ} (same : first.dropTree = second.dropTree) :
    first.freshStream around = second.freshStream around ∧ first.freshClusters around = second.freshClusters around := by
  have streams : first.dropTree.freshStream around = second.dropTree.freshStream around := by rw [same]
  have clusters : first.dropTree.freshClusters around = second.dropTree.freshClusters around := by rw [same]
  exact ⟨streams, clusters⟩

variable [DecidableEq θ]

theorem Coherent.clusters (coherent : Coherent around block) :
    (block.clusters around).value = block.freshClusters around ∧ Coherent around (block.clusters around).block ∧
      (block.clusters around).block.dropTree = block.dropTree := by
  cases known : block.final with
  | some pieces =>
    simp only [Block.clusters, known, and_true]
    exact ⟨coherent.final pieces known, coherent⟩
  | none =>
    obtain ⟨newValue, newSound, newFrame⟩ := coherent.sound.stream block.theme
    have phase : (block.stream around block.theme).block.transition.phase = block.transition.phase :=
      congrArg (fun other => other.transition.phase) newFrame
    cases running : block.transition.phase with
    | idle =>
      have shown : block.freshStream around block.theme = block.freshClusters around := by
        simp only [freshClusters, running]
      simp only [Block.clusters, known, phase, running, newValue]
      exact ⟨shown, newSound.keep (shown.trans (fresh_of_dropTree_eq newFrame).2.symm), newFrame⟩
    | running oldTheme progress =>
      obtain ⟨oldValue, oldSound, oldFrame⟩ := newSound.stream oldTheme
      have frame := oldFrame.trans newFrame
      have stream : (block.stream around block.theme).block.freshStream around oldTheme = block.freshStream around oldTheme :=
        congrFun (fresh_of_dropTree_eq newFrame).1 oldTheme
      have shown : (blend around.colors (block.freshStream around block.theme) (block.freshStream around oldTheme)
          (some progress)).1 = block.freshClusters around := by
        simp only [freshClusters, running]
      simp only [Block.clusters, known, phase, running, newValue, oldValue, stream]
      exact ⟨shown, oldSound.keep (shown.trans (fresh_of_dropTree_eq frame).2.symm), frame⟩

theorem Coherent.still (coherent : Coherent around block) (still : block.transition.phase = .idle) :
    (block.clusters around).value = block.freshStream around block.theme := by
  rw [coherent.clusters.1, freshClusters, still]

theorem Coherent.advance (coherent : Coherent around block) (delta : α) : Coherent around (block.advance delta).1 := by
  unfold Block.advance
  split
  · exact coherent
  split
  next transition ticked => exact (coherent.sound.retime block.theme transition none).coherent rfl
  next transition ticked => exact (coherent.sound.retime block.theme transition none).prune.coherent rfl
  next transition failed ticked =>
    -- the final clusters are kept here: the phase they were blended for is still the phase
    refine ⟨coherent.sound.retime block.theme transition block.final, ?_⟩
    intro pieces found
    rw [coherent.final pieces found]
    simp only [freshClusters, Transition.tick_failed_phase ticked]
    rfl

theorem Coherent.perform (coherent : Coherent around block) (operation : Operation θ α γ) :
    Coherent around (block.perform around operation).1 := by
  cases operation with
  | setCode value | setLanguage value | setDialect value =>
    simp only [Block.perform, setCode, setLanguage, setDialect]
    split
    · exact coherent
    · exact (sound_of_empty around rfl rfl).coherent rfl
  | setFallback fallback =>
    simp only [Block.perform, setFallback]
    split
    · exact coherent
    · -- the tree is kept: the fallback colour plays no part in it
      refine Sound.coherent ⟨coherent.sound.tree, ?_⟩ rfl
      intro entry member
      cases member
  | setTheme theme => exact (coherent.sound.retime theme block.transition.stop none).prune.coherent rfl
  | tween theme duration easing =>
    exact (coherent.sound.retime theme (block.transition.start block.theme duration easing) none).prune.coherent rfl
  | advance delta => exact coherent.advance delta
  | clusters | size measurer | draw measurer => exact coherent.clusters.2.1

private theorem run_coherent (around : Surroundings θ α) (theme : θ) (code : List γ) (language : Language)
    (dialect : String) (fallback : Option String) (operations : List (Operation θ α γ)) :
    Coherent around ((create theme code language dialect fallback).run around operations) :=
  run_keeps (fun _ operation coherent => coherent.perform operation)
    ((sound_of_empty around rfl rfl).coherent rfl) operations

theorem Reachable.coherent (reached : Reachable around block) : Coherent around block := by
  obtain ⟨theme, code, language, dialect, fallback, operations, rfl⟩ := reached
  exact run_coherent around theme code language dialect fallback operations

end Block

end Highlight
