import Highlight.Proofs.BlockEvents
import Mathlib.Data.List.Nodup
import Mathlib.Data.List.Perm.Subperm

/-! What a block keeps between two readings. A reading parses the code if that has not been done, and
paints those themes in use whose streams are missing. The caches hold no stream of a theme that is
not in use, so there are never more than two. -/

namespace Highlight.Block

variable {θ α γ : Type} {around : Surroundings θ α} {block after : Block θ α γ} {theme : θ}

def known (block : Block θ α γ) : List θ := block.streams.map Prod.fst

variable [DecidableEq θ]

def liveThemes (block : Block θ α γ) : List θ :=
  block.theme :: block.transition.phase.oldTheme?.toList.filter (· ≠ block.theme)

def missing (block : Block θ α γ) : List θ := block.liveThemes.filter (· ∉ block.known)

theorem isLive_iff : block.isLive theme = true ↔ theme = block.theme ∨ block.transition.phase.oldTheme? = some theme := by
  simp [isLive]

private theorem mem_liveThemes : theme ∈ block.liveThemes ↔ block.isLive theme = true := by
  rw [isLive_iff, liveThemes, List.mem_cons, List.mem_filter, Option.mem_toList, decide_eq_true_eq]
  exact or_congr_right' fun apart => and_iff_left apart

theorem nodup_liveThemes (block : Block θ α γ) : block.liveThemes.Nodup := by
  refine List.nodup_cons.mpr ⟨by simp, ?_⟩
  cases block.transition.phase.oldTheme? with
  | none => exact List.nodup_nil
  | some old => exact (List.nodup_singleton old).filter _

theorem mem_missing : theme ∈ block.missing ↔ block.isLive theme = true ∧ theme ∉ block.known := by
  rw [missing, List.mem_filter, mem_liveThemes, decide_eq_true_eq]

theorem filter_missing (live : block.isLive theme = true) :
    block.missing.filter (· = theme) = if theme ∈ block.known then [] else [theme] := by
  have distinct : block.missing.Nodup := block.nodup_liveThemes.filter _
  have counted : block.missing.count theme = if theme ∈ block.missing then 1 else 0 := distinct.count
  rw [List.filter_eq, counted]
  by_cases inside : theme ∈ block.known
  · rw [if_neg fun member => (mem_missing.mp member).2 inside, if_pos inside]
    rfl
  · rw [if_pos (mem_missing.mpr ⟨live, inside⟩), if_neg inside]
    rfl

theorem isLive_of_dropTree_eq (same : after.dropTree = block.dropTree) (theme : θ) : after.isLive theme = block.isLive theme :=
  congrArg (fun block => block.isLive theme) same

theorem lookup_eq_none_iff : block.streams.lookup theme = none ↔ theme ∉ block.known := by
  rw [List.lookup_eq_none_iff, known]
  simp only [List.mem_map, bne_iff_ne, ne_eq, not_exists, not_and]
  exact ⟨fun none entry member same => none entry member same.symm, fun none entry member same => none entry member same.symm⟩

private theorem mem_known_of_lookup {pieces : List (Piece γ)} (found : block.streams.lookup theme = some pieces) :
    theme ∈ block.known := by
  by_contra outside
  rw [lookup_eq_none_iff.mpr outside] at found
  cases found

theorem known_prune (block : Block θ α γ) : block.prune.known = block.known.filter block.isLive := by
  rw [known, prune, known, List.filter_map]
  rfl

/-- The caches hold nothing that is not in use, nothing before what it was made from, and all that
the final clusters were made from. -/
structure Tidy (block : Block θ α γ) : Prop where
  distinct : block.known.Nodup
  live : ∀ theme ∈ block.known, block.isLive theme = true
  rooted : block.tree = none → block.streams = [] ∧ block.final = none
  ready : block.final ≠ none → ∀ theme, block.isLive theme = true → theme ∈ block.known

theorem tidy_of_empty (streams : block.streams = []) (final : block.final = none) : Tidy block := by
  have unknown : block.known = [] := by rw [known, streams, List.map_nil]
  refine ⟨unknown ▸ List.nodup_nil, ?_, fun _ => ⟨streams, final⟩, fun some => absurd final some⟩
  intro theme member
  rw [unknown] at member
  cases member

theorem Tidy.tree_ne_none (tidy : Tidy block) (inside : theme ∈ block.known) : block.tree ≠ none := by
  intro unparsed
  rw [known, (tidy.rooted unparsed).1] at inside
  cases inside

theorem Tidy.finish (tidy : Tidy block) (parsed : block.tree ≠ none)
    (ready : ∀ theme, block.isLive theme = true → theme ∈ block.known) (pieces : List (Piece γ)) :
    Tidy { block with final := some pieces } :=
  ⟨tidy.distinct, tidy.live, fun unparsed => absurd unparsed parsed, fun _ => ready⟩

variable [Letter γ]

theorem Sound.stream_events (sound : Sound around block) (theme : θ) : (block.stream around theme).events =
    if theme ∈ block.known then [] else (block.parsed around).events ++ block.paintEvents around theme := by
  cases found : block.streams.lookup theme with
  | some pieces =>
    rw [if_pos (mem_known_of_lookup found)]
    simp only [Block.stream, found]
  | none =>
    rw [if_neg (lookup_eq_none_iff.mp found), paintEvents, ← sound.parsed.1]
    simp only [Block.stream, found]
    cases (block.parsed around).value <;> rfl

theorem Sound.stream_block (sound : Sound around block) (theme : θ) : (block.stream around theme).block =
    if theme ∈ block.known then block else { block with
      tree := some (block.freshTree around), streams := (theme, block.freshStream around theme) :: block.streams } := by
  cases found : block.streams.lookup theme with
  | some pieces =>
    rw [if_pos (mem_known_of_lookup found)]
    simp only [Block.stream, found]
  | none => rw [if_neg (lookup_eq_none_iff.mp found), (sound.stream_unknown found).2]

theorem Tidy.parsed_events (tidy : Tidy block) (inside : theme ∈ block.known) : (block.parsed around).events = [] := by
  rw [Block.parsed_events, if_pos (Option.isSome_iff_ne_none.mpr (tidy.tree_ne_none inside))]

structure Fetching (around : Surroundings θ α) (block : Block θ α γ) (theme : θ) (reply : Reply θ α (List (Piece γ)) γ) : Prop where
  sound : Sound around reply.block
  frame : reply.block.dropTree = block.dropTree
  tidy : Tidy reply.block
  unset : reply.block.final = none
  parsed : reply.block.tree ≠ none
  known : ∀ other, other ∈ reply.block.known ↔ other = theme ∨ other ∈ block.known
  events : reply.events = (block.parsed around).events ++ if theme ∈ block.known then [] else block.paintEvents around theme

theorem Tidy.fetching (tidy : Tidy block) (sound : Sound around block) (unset : block.final = none)
    (live : block.isLive theme = true) : Fetching around block theme (block.stream around theme) := by
  obtain ⟨-, kept, frame⟩ := sound.stream theme
  by_cases inside : theme ∈ block.known
  · have same := sound.stream_block theme
    rw [if_pos inside] at same
    refine ⟨kept, frame, same.symm ▸ tidy, same.symm ▸ unset, same.symm ▸ tidy.tree_ne_none inside, fun other => ?_, ?_⟩
    · rw [same]
      exact ⟨Or.inr, fun either => either.elim (fun same => same ▸ inside) id⟩
    · rw [sound.stream_events, if_pos inside, if_pos inside, tidy.parsed_events inside, List.append_nil]
  · have grown := sound.stream_block theme
    rw [if_neg inside] at grown
    have known : (block.stream around theme).block.known = theme :: block.known := by
      rw [grown]
      rfl
    refine ⟨kept, frame, ⟨?_, ?_, ?_, ?_⟩, ?_, ?_, ?_, ?_⟩
    · rw [known]
      exact List.nodup_cons.mpr ⟨inside, tidy.distinct⟩
    · rw [known]
      refine List.forall_mem_cons.mpr ⟨?_, fun other member => ?_⟩
      · rwa [isLive_of_dropTree_eq frame]
      · rw [isLive_of_dropTree_eq frame]
        exact tidy.live other member
    · rw [grown]
      exact fun unparsed => by cases unparsed
    · rw [grown]
      exact fun final => absurd unset final
    · rw [grown]
      exact unset
    · rw [grown]
      exact Option.some_ne_none _
    · rw [known]
      exact fun other => List.mem_cons
    · rw [sound.stream_events, if_neg inside, if_neg inside]

theorem Fetching.alike {reply : Reply θ α (List (Piece γ)) γ} (fetching : Fetching around block theme reply) : PaintedAlike block reply.block :=
  .of_dropTree_eq fetching.frame

theorem Fetching.isLive {reply : Reply θ α (List (Piece γ)) γ} (fetching : Fetching around block theme reply) (other : θ) :
    reply.block.isLive other = block.isLive other := isLive_of_dropTree_eq fetching.frame other

variable [DecidableEq γ]

structure Reading (around : Surroundings θ α) (block : Block θ α γ) (reply : Reply θ α (List (Piece γ)) γ) : Prop where
  tidy : Tidy reply.block
  known : ∀ theme, theme ∈ reply.block.known ↔ block.isLive theme = true
  parsed : reply.block.tree ≠ none
  events : ∃ new old : List (Piece γ), reply.events =
    (block.parsed around).events ++ block.missing.flatMap (block.paintEvents around) ++ (blendNotices new old).map .noticed

theorem Reading.paintings {reply : Reply θ α (List (Piece γ)) γ} (reading : Reading around block reply) :
    paintings reply.events = if (block.freshTree around).isSome then block.missing else [] := by
  obtain ⟨new, old, events⟩ := reading.events
  have painted : Highlight.paintings (block.missing.flatMap (block.paintEvents around)) =
      block.missing.flatMap fun theme => if (block.freshTree around).isSome then [theme] else [] := by
    rw [Highlight.paintings, List.filterMap_flatMap]
    exact congrArg (fun f => block.missing.flatMap f) (funext (paintings_paintEvents around block))
  have joined : Highlight.paintings reply.events = Highlight.paintings (block.parsed around).events ++
      Highlight.paintings (block.missing.flatMap (block.paintEvents around)) ++
        Highlight.paintings ((blendNotices new old).map .noticed) := by
    simp only [events, Highlight.paintings, List.filterMap_append]
  rw [joined, paintings_parsed, painted, paintings_notices, List.append_nil, List.nil_append]
  split
  · exact List.flatMap_singleton' _
  · exact List.flatMap_eq_nil_iff.mpr fun _ _ => rfl

theorem Reading.filterMap_parsing {β : Type} {work : Event θ → Option β} (only : ∀ event, event.ofParsing = false → work event = none)
    {reply : Reply θ α (List (Piece γ)) γ} (reading : Reading around block reply) :
    reply.events.filterMap work = if block.tree.isSome then [] else (block.parseEvents around).filterMap work := by
  obtain ⟨new, old, events⟩ := reading.events
  have painting : (block.missing.flatMap (block.paintEvents around)).filterMap work = [] := by
    refine List.filterMap_eq_nil_iff.mpr fun event member => ?_
    obtain ⟨theme, -, inside⟩ := List.mem_flatMap.mp member
    exact only event (ofParsing_paintEvents event inside)
  have blending : ((blendNotices new old).map .noticed).filterMap work = [] :=
    List.filterMap_eq_nil_iff.mpr fun event member => only event (ofParsing_blendNotices new old event member)
  rw [events, List.filterMap_append, List.filterMap_append, painting, blending, List.append_nil, List.append_nil, parsed_events]
  split <;> rfl

section
variable {new old : Reply θ α (List (Piece γ)) γ}

theorem Fetching.reading_idle (tidy : Tidy block) (idle : block.transition.phase = .idle)
    (fetched : Fetching around block block.theme new) (pieces : List (Piece γ)) :
    Reading around block ⟨pieces, { new.block with final := some pieces }, new.events⟩ := by
  have live : ∀ theme, block.isLive theme = true ↔ theme = block.theme := by
    intro theme
    rw [isLive_iff, idle]
    exact or_iff_left fun none => by cases none
  have known : ∀ theme, theme ∈ new.block.known ↔ block.isLive theme = true := by
    intro theme
    rw [fetched.known, live]
    exact or_iff_left_of_imp fun inside => (live theme).mp (tidy.live theme inside)
  refine ⟨fetched.tidy.finish fetched.parsed (fun theme use => (known theme).mpr ?_) pieces, known, fetched.parsed, [], [], ?_⟩
  · rwa [fetched.isLive] at use
  · simp only [fetched.events, missing, liveThemes, idle, Phase.oldTheme?, Option.toList_none, List.filter_nil, List.filter_cons]
    by_cases inside : block.theme ∈ block.known <;> simp [inside, blendNotices, firstDifference?]

theorem Fetching.reading_running (tidy : Tidy block) {oldTheme : θ} {progress : α}
    (running : block.transition.phase = .running oldTheme progress) (fetched : Fetching around block block.theme new)
    (behind : Fetching around new.block oldTheme old) (pieces : List (Piece γ)) :
    Reading around block ⟨pieces, { old.block with final := some pieces },
      new.events ++ old.events ++ (blendNotices new.value old.value).map .noticed⟩ := by
  have live : ∀ theme, block.isLive theme = true ↔ theme = block.theme ∨ theme = oldTheme := by
    intro theme
    rw [isLive_iff, running]
    exact or_congr_right (by rw [Phase.oldTheme?, Option.some.injEq, eq_comm])
  have known : ∀ theme, theme ∈ old.block.known ↔ block.isLive theme = true := by
    intro theme
    rw [behind.known, fetched.known, live]
    constructor
    · rintro (same | same | inside)
      · exact Or.inr same
      · exact Or.inl same
      · exact (live theme).mp (tidy.live theme inside)
    · rintro (same | same)
      · exact Or.inr (Or.inl same)
      · exact Or.inl same
  -- the tree is there by now, and the old theme is painted unless it is the active one
  have later : old.events =
      if oldTheme = block.theme ∨ oldTheme ∈ block.known then [] else block.paintEvents around oldTheme := by
    have parsed : (new.block.parsed around).events = [] :=
      fetched.tidy.parsed_events ((fetched.known block.theme).mpr (Or.inl rfl))
    rw [behind.events, parsed, List.nil_append, fetched.alike.paintEvents]
    simp only [fetched.known]
  refine ⟨behind.tidy.finish behind.parsed (fun theme use => (known theme).mpr ?_) pieces, known, behind.parsed,
    new.value, old.value, congrArg (· ++ _) ?_⟩
  · rwa [behind.isLive, fetched.isLive] at use
  · simp only [later, fetched.events, missing, liveThemes, running, Phase.oldTheme?, Option.toList_some, List.filter_cons, List.filter_nil]
    by_cases same : oldTheme = block.theme
    · by_cases inside : block.theme ∈ block.known <;> simp [same, inside]
    · by_cases inside : block.theme ∈ block.known <;> by_cases held : oldTheme ∈ block.known <;> simp [same, inside, held]

end

variable [Add α] [Sub α] [Mul α] [Div α] [Neg α] [LT α] [DecidableLT α] [LE α] [DecidableLE α]
  [OfNat α 0] [OfNat α 1] [OfNat α 2] [FractionalPart α]

theorem Tidy.reading_known (tidy : Tidy block) {pieces : List (Piece γ)} (final : block.final = some pieces) :
    Reading around block (block.clusters around) := by
  have ready := tidy.ready (final ▸ Option.some_ne_none pieces)
  have active : block.theme ∈ block.known := ready block.theme (isLive_iff.mpr (Or.inl rfl))
  have nothing : block.missing = [] := by
    refine List.filter_eq_nil_iff.mpr fun theme member => ?_
    simpa using ready theme (mem_liveThemes.mp member)
  have shown : block.clusters around = ⟨pieces, block, []⟩ := by simp only [Block.clusters, final]
  rw [shown]
  refine ⟨tidy, fun theme => ⟨tidy.live theme, ready theme⟩, tidy.tree_ne_none active, [], [], ?_⟩
  rw [nothing, tidy.parsed_events active]
  rfl

theorem Coherent.reading (coherent : Coherent around block) (tidy : Tidy block) : Reading around block (block.clusters around) := by
  cases final : block.final with
  | some pieces => exact tidy.reading_known final
  | none =>
    have new := tidy.fetching coherent.sound final (isLive_iff.mpr (Or.inl rfl))
    have phase : (block.stream around block.theme).block.transition.phase = block.transition.phase :=
      congrArg (fun other => other.transition.phase) new.frame
    cases running : block.transition.phase with
    | idle =>
      simp only [Block.clusters, final, phase, running]
      exact new.reading_idle tidy running _
    | running oldTheme progress =>
      have live : (block.stream around block.theme).block.isLive oldTheme = true := by
        rw [new.isLive, isLive_iff, running]
        exact Or.inr rfl
      simp only [Block.clusters, final, phase, running]
      exact new.reading_running tidy running (new.tidy.fetching new.sound new.unset live) _

end Highlight.Block
