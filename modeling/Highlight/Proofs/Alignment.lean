import Highlight.Proofs.CrossFade
import Highlight.Theme.Palette
import Mathlib.Data.List.Nodup

/-! When two streams of one text can be blended without a warning. Their borders depend on where
the colour changes and on nothing else. The built-in themes give different colours to different
roles, so whichever of them colours a text, the colour changes where the role does. -/

namespace Highlight

def Notice.misaligned : Notice → Bool
  | .streamLengths .. | .streamTexts .. => true
  | _ => false

def Event.misaligned {θ : Type} (event : Event θ) : Bool := event.notice?.any Notice.misaligned

private theorem firstDifference?_of_texts {new old : List Piece} (same : new.map Piece.text = old.map Piece.text)
    (index : Nat) :
    firstDifference? index new old = none := by
  induction new generalizing old index with
  | nil => rfl
  | cons piece news ih =>
    obtain ⟨partner, olds, rfl, text, rest⟩ := List.map_eq_cons_iff.mp same.symm
    rw [firstDifference?, if_pos text.symm]
    exact ih rest.symm (index + 1)

private theorem blendNotices_of_texts {new old : List Piece} (same : new.map Piece.text = old.map Piece.text) :
    blendNotices new old = [] := by
  have lengths : new.length = old.length := by
    have counted := congrArg List.length same
    rwa [List.length_map, List.length_map] at counted
  rw [blendNotices, if_pos lengths, firstDifference?_of_texts same]
  rfl

namespace Piece

private theorem segment_mapIdx (text : List Char) (color : Nat → Option String) :
    segment (text.mapIdx fun index c => (c, color index)) = clusters (merge (text.mapIdx fun index c => ⟨[c], color index⟩)) := by
  rw [segment, List.mapIdx_eq_zipIdx_map, List.mapIdx_eq_zipIdx_map, List.map_map]
  rfl

private theorem color_mapIdx (text : List Char) (color : Nat → Option String) {index : Nat} (inside : index < text.length) :
    (text.mapIdx fun index c => (c, color index))[index]?.map Prod.snd = some (color index) := by
  rw [List.getElem?_mapIdx, List.getElem?_eq_getElem inside]
  rfl

private theorem map_text_segment_mapIdx {text : List Char} {first second : Nat → Option String}
    (borders : ∀ index, index + 1 < text.length → (first index = first (index + 1) ↔ second index = second (index + 1))) :
    (segment (text.mapIdx fun index c => (c, first index))).map Piece.text =
      (segment (text.mapIdx fun index c => (c, second index))).map Piece.text := by
  refine map_text_segment ?_ ?_
  · rw [map_fst_mapIdx, map_fst_mapIdx]
  · intro index inside
    rw [List.length_mapIdx] at inside
    have before : index < text.length := Nat.lt_of_succ_lt inside
    rw [color_mapIdx text first before, color_mapIdx text first inside, color_mapIdx text second before,
      color_mapIdx text second inside, Option.some.injEq, Option.some.injEq]
    exact borders index inside

end Piece

namespace ColorMode

def rules (mode : ColorMode) : Rules :=
  Rules.ofList (TokenKind.all.map fun kind => (kind.classList, some (kind.role.value mode)))

private theorem theme_rules (mode : ColorMode) : mode.theme.rules = some mode.rules := rfl

theorem mem_all (mode : ColorMode) : mode ∈ all := by cases mode <;> decide

private theorem resolve?_rules (mode : ColorMode) (kind : TokenKind) :
    mode.rules.resolve? kind.classList = some (kind.role.value mode) := by
  have looked : ∀ mode ∈ all, ∀ kind ∈ TokenKind.all,
      mode.rules.resolve? kind.classList = some (kind.role.value mode) := by decide +kernel
  exact looked mode mode.mem_all kind kind.mem_all

end ColorMode

theorem ColorRole.mem_all (role : ColorRole) : role ∈ all := by cases role <;> decide

/-- No two roles share a colour, be it in the light or in the dark. -/
theorem ColorRole.value_inj {first second : ColorRole} {mode : ColorMode} :
    first.value mode = second.value mode ↔ first = second := by
  have distinct : ∀ mode ∈ ColorMode.all, (all.map fun role => role.value mode).Nodup := by decide +kernel
  refine ⟨fun same => ?_, congrArg (value · mode)⟩
  exact List.inj_on_of_nodup_map (distinct mode mode.mem_all) first.mem_all second.mem_all same

def roleAt (tokens : List Token) (index : Nat) : ColorRole :=
  match tokens.filter fun token => token.covers index with
  | [token] => token.kind.role
  | _ => .text

private theorem colorAt_rules (mode : ColorMode) (tokens : List Token) (index : Nat) :
    colorAt mode.rules mode.theme.fallback tokens index = some ((roleAt tokens index).value mode) := by
  unfold colorAt roleAt
  generalize (tokens.filter fun token => token.covers index) = covering
  match covering with
  | [token] =>
    simp only [← Rules.resolve?_eq, ColorMode.resolve?_rules]
    rfl
  | [] => rfl
  | _ :: _ :: _ => rfl

/-- Whichever built-in theme colours a text, the colour changes where the role does. -/
theorem colorAt_rules_eq_iff (mode : ColorMode) (tokens : List Token) (first second : Nat) :
    colorAt mode.rules mode.theme.fallback tokens first = colorAt mode.rules mode.theme.fallback tokens second ↔
      roleAt tokens first = roleAt tokens second := by
  rw [colorAt_rules, colorAt_rules, Option.some.injEq, ColorRole.value_inj]

namespace Block

variable {θ α : Type} {around : Surroundings θ α} {block : Block θ α}

private theorem parsed_events_aligned : ∀ event ∈ (block.parsed around).events, event.misaligned = false := by
  unfold Block.parsed
  split
  · exact fun _ none => absurd none List.not_mem_nil
  split
  · exact List.forall_mem_singleton.mpr rfl
  · exact List.forall_mem_cons.mpr ⟨rfl, List.forall_mem_singleton.mpr rfl⟩

private theorem paintStream_events_aligned (theme : θ) (tokens : List Token) :
    ∀ event ∈ (paintStream around block theme tokens).2, event.misaligned = false := by
  unfold paintStream
  dsimp only
  split
  next cells notices painted =>
    refine List.forall_mem_cons.mpr ⟨rfl, ?_⟩
    intro event member
    obtain ⟨notice, inside, rfl⟩ := List.mem_map.mp member
    obtain ⟨_, rfl⟩ | ⟨_, rfl⟩ := Theme.paint_notices painted notice inside <;> rfl
  next => exact List.forall_mem_cons.mpr ⟨rfl, List.forall_mem_singleton.mpr rfl⟩

private theorem stream_events_aligned [DecidableEq θ] (theme : θ) :
    ∀ event ∈ (block.stream around theme).events, event.misaligned = false := by
  unfold Block.stream
  split
  · exact fun _ none => absurd none List.not_mem_nil
  dsimp only
  intro event member
  rcases List.mem_append.mp member with parsing | painting
  · exact parsed_events_aligned event parsing
  cases tree : (block.parsed around).value with
  | some tokens =>
    rw [tree] at painting
    exact paintStream_events_aligned theme tokens event painting
  | none =>
    rw [tree] at painting
    exact absurd painting List.not_mem_nil

variable {grammar : Grammar} {theme oldTheme : θ} {mode oldMode : ColorMode}

private theorem freshStream_builtin (known : around.registry.grammar? block.language = some grammar)
    (plain : block.fallback = none ∨ block.fallback = some "") (builtin : around.theme theme = mode.theme) :
    block.freshStream around theme = Piece.segment (block.code.mapIdx fun index c =>
      (c, colorAt mode.rules mode.theme.fallback (grammar.tokens block.dialect block.code) index)) := by
  have ruled : (around.theme theme).rules = some mode.rules := by rw [builtin, ColorMode.theme_rules]
  rw [freshStream_eq known ruled, fallbackFor_eq, if_pos plain, builtin]
  rfl

private theorem colorOf?_freshStream (known : around.registry.grammar? block.language = some grammar)
    (plain : block.fallback = none ∨ block.fallback = some "") (builtin : around.theme theme = mode.theme)
    {index : Nat} (inside : index < block.code.length) :
    Piece.colorOf? (block.freshStream around theme) index =
      some (colorAt mode.rules mode.theme.fallback (grammar.tokens block.dialect block.code) index) := by
  rw [freshStream_builtin known plain builtin, Piece.colorOf?, Piece.chars_segment]
  exact Piece.color_mapIdx _ _ inside

variable [DecidableEq θ] [Add α] [Sub α] [Mul α] [Div α] [Neg α] [LT α] [DecidableLT α] [LE α] [DecidableLE α]
  [OfNat α 0] [OfNat α 1] [OfNat α 2] [FractionalPart α]

theorem Coherent.events_aligned (coherent : Coherent around block)
    (alike : ∀ oldTheme progress, block.transition.phase = .running oldTheme progress →
      (block.freshStream around block.theme).map Piece.text = (block.freshStream around oldTheme).map Piece.text) :
    ∀ event ∈ (block.clusters around).events, event.misaligned = false := by
  unfold Block.clusters
  split
  · exact fun _ none => absurd none List.not_mem_nil
  obtain ⟨newValue, newSound, newFrame⟩ := coherent.sound.stream block.theme
  have phase : (block.stream around block.theme).block.transition.phase = block.transition.phase :=
    congrArg (fun other => other.transition.phase) newFrame
  dsimp only
  split
  · exact stream_events_aligned block.theme
  next oldTheme progress running =>
    obtain ⟨oldValue, -, -⟩ := newSound.stream oldTheme
    have stream : (block.stream around block.theme).block.freshStream around oldTheme = block.freshStream around oldTheme :=
      congrFun (fresh_of_dropTree_eq newFrame).1 oldTheme
    have quiet : blendNotices (block.stream around block.theme).value
        ((block.stream around block.theme).block.stream around oldTheme).value = [] := by
      rw [newValue, oldValue, stream]
      exact blendNotices_of_texts (alike oldTheme progress (phase.symm.trans running))
    intro event member
    simp only [blend, quiet, List.map_nil, List.append_nil] at member
    rcases List.mem_append.mp member with new | old
    · exact stream_events_aligned block.theme event new
    · exact stream_events_aligned oldTheme event old

theorem Coherent.perform_aligned (coherent : Coherent around block)
    (alike : ∀ oldTheme progress, block.transition.phase = .running oldTheme progress →
      (block.freshStream around block.theme).map Piece.text = (block.freshStream around oldTheme).map Piece.text)
    (operation : Operation θ α) : ∀ event ∈ (block.perform around operation).2, event.misaligned = false := by
  cases operation with
  | setCode _ | setLanguage _ | setDialect _ | setFallback _ | setTheme _ | advance _ =>
    exact fun _ none => absurd none List.not_mem_nil
  | tween theme duration easing =>
    intro event member
    obtain ⟨notice, inside, rfl⟩ := List.mem_map.mp member
    unfold Transition.startNotices at inside
    split at inside
    · rw [List.mem_singleton.mp inside]
      rfl
    · cases inside
  | clusters | size measurer | draw measurer => exact coherent.events_aligned alike

/-- Colourings of one text that change at the same characters give streams of the same texts,
which are blended without a warning. The built-in themes always colour a code so: while a
block goes from one of them to another, no operation warns about alignment. -/
theorem streams_align (around : Surroundings θ α) :
    (∀ (text : List Char) (old new : Nat → Option String),
      (∀ index, index + 1 < text.length → (old index = old (index + 1) ↔ new index = new (index + 1))) →
        let oldStream := Piece.clusters (Piece.merge (text.mapIdx fun index c => ⟨[c], old index⟩))
        let newStream := Piece.clusters (Piece.merge (text.mapIdx fun index c => ⟨[c], new index⟩))
        newStream.map Piece.text = oldStream.map Piece.text ∧
          ∀ progress, (blend around.colors newStream oldStream progress).2 = []) ∧
    ∀ (block : Block θ α) (grammar : Grammar) (oldTheme : θ) (oldMode mode : ColorMode), Reachable around block →
      around.registry.grammar? block.language = some grammar → (block.fallback = none ∨ block.fallback = some "") →
      around.theme oldTheme = oldMode.theme → around.theme block.theme = mode.theme →
        (∀ index, index + 1 < block.code.length →
          (Piece.colorOf? (block.standing around oldTheme) index = Piece.colorOf? (block.standing around oldTheme) (index + 1) ↔
            Piece.colorOf? (block.standing around block.theme) index =
              Piece.colorOf? (block.standing around block.theme) (index + 1))) ∧
        (block.transition.phase.oldTheme? = some oldTheme →
          ∀ operation, ∀ event ∈ (block.perform around operation).2, event.misaligned = false) := by
  refine ⟨?_, ?_⟩
  · intro text old new borders oldStream newStream
    have texts : newStream.map Piece.text = oldStream.map Piece.text := by
      have segments := Piece.map_text_segment_mapIdx borders
      rw [Piece.segment_mapIdx, Piece.segment_mapIdx] at segments
      exact segments.symm
    refine ⟨texts, ?_⟩
    intro progress
    cases progress with
    | none => rfl
    | some progress => exact blendNotices_of_texts texts
  · intro block grammar oldTheme oldMode mode reached known plain oldBuiltin builtin
    have coherent := reached.coherent
    refine ⟨?_, ?_⟩
    · intro index inside
      have before : index < block.code.length := Nat.lt_of_succ_lt inside
      simp only [coherent.standing, colorOf?_freshStream known plain oldBuiltin before,
        colorOf?_freshStream known plain oldBuiltin inside, colorOf?_freshStream known plain builtin before,
        colorOf?_freshStream known plain builtin inside, Option.some.injEq, colorAt_rules_eq_iff]
    · intro leaving operation
      refine coherent.perform_aligned ?_ operation
      intro other progress running
      obtain rfl : other = oldTheme := by
        rw [running] at leaving
        exact Option.some.inj leaving
      rw [freshStream_builtin known plain builtin, freshStream_builtin known plain oldBuiltin]
      refine Piece.map_text_segment_mapIdx fun index inside => ?_
      rw [colorAt_rules_eq_iff, colorAt_rules_eq_iff]

/-- From dark to light, in the middle of a transition and right after the language was changed. -/
theorem streams_align_dark_light :
    let around : Surroundings ColorMode Rat := ⟨.builtin, ColorMode.theme, ⟨fun _ => ⟨0, 0, 0⟩, fun _ => ""⟩⟩
    let block := (create .dark "if (e\u0301) \x60a\n".toList .json "" none).run around
      [.clusters, .tween .light 2 linear, .clusters, .advance 1, .setLanguage .typescript, .setFallback (some "")]
    let dark : Nat → Option String := fun index => if index < 2 then some "#d8d8d8" else some "#80b0f0"
    let light : Nat → Option String := fun index => if index < 2 then some "#202020" else some "#0060c0"
    Reachable around block ∧ block.transition.phase.oldTheme? = some .dark ∧
      around.registry.grammar? block.language = some .typescript ∧ block.fallback = some "" ∧
      (∀ index, index + 1 < block.code.length →
        (Piece.colorOf? (block.standing around .dark) index = Piece.colorOf? (block.standing around .dark) (index + 1) ↔
          Piece.colorOf? (block.standing around block.theme) index =
            Piece.colorOf? (block.standing around block.theme) (index + 1))) ∧
      (∀ operation, ∀ event ∈ (block.perform around operation).2, event.misaligned = false) ∧
      (Piece.clusters (Piece.merge ("a = 1".toList.mapIdx fun index c => ⟨[c], light index⟩))).map Piece.text =
        (Piece.clusters (Piece.merge ("a = 1".toList.mapIdx fun index c => ⟨[c], dark index⟩))).map Piece.text := by
  intro around block dark light
  have reached : Reachable around block := ⟨_, _, _, _, _, _, rfl⟩
  have leaving : block.transition.phase.oldTheme? = some .dark := by decide +kernel
  have known : around.registry.grammar? block.language = some .typescript := by decide +kernel
  have plain : block.fallback = some "" := by decide +kernel
  have builtin : around.theme block.theme = ColorMode.light.theme := by decide +kernel
  obtain ⟨cut, tweened⟩ := streams_align around
  obtain ⟨borders, quiet⟩ := tweened block .typescript .dark .dark .light reached known (Or.inr plain) rfl builtin
  refine ⟨reached, leaving, known, plain, borders, quiet leaving, (cut "a = 1".toList dark light ?_).1⟩
  intro index inside
  have within : index < 4 := Nat.lt_of_succ_lt_succ inside
  clear inside
  revert index
  decide

end Block

end Highlight
