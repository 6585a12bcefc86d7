import Highlight.Proofs.CrossFade

/-! What a block shows is its code, whatever happened before. Colouring and cutting lose no unit of
it and make no empty cluster, and blending takes every text from the stream of the active theme, so
an old stream that is cut differently, or that could not be painted, changes no text. Only two
halves of a pair that have one colour come back as one character. -/

namespace Highlight

namespace Text

variable {γ : Type} [Letter γ]

private theorem filled_continueGrapheme (odd : Bool) (left : γ) (text : List γ) :
    ∀ grapheme ∈ (continueGrapheme odd left text).2, grapheme ≠ [] := by
  induction text generalizing odd left with
  | nil => exact fun _ none => absurd none List.not_mem_nil
  | cons c rest ih =>
    rw [continueGrapheme_cons]
    split
    · exact List.forall_mem_cons.mpr ⟨List.cons_ne_nil _ _, ih (oddRow odd (Letter.seen c)) c⟩
    · exact ih (oddRow odd (Letter.seen c)) c

theorem filled_graphemes (text : List γ) : ∀ grapheme ∈ graphemes text, grapheme ≠ [] := by
  cases text with
  | nil => exact fun _ none => absurd none List.not_mem_nil
  | cons c rest =>
    rw [graphemes_cons]
    exact List.forall_mem_cons.mpr ⟨List.cons_ne_nil _ _, filled_continueGrapheme _ c rest⟩

end Text

namespace Piece

variable {γ : Type} [Letter γ]

theorem filled_clustersOf (color : Option String) {graphemes : List (List γ)} (filled : ∀ grapheme ∈ graphemes, grapheme ≠ []) :
    ∀ piece ∈ clustersOf color graphemes, piece.text ≠ [] := by
  fun_induction clustersOf color graphemes with
  | case1 => exact fun _ none => absurd none List.not_mem_nil
  | case2 first others blank ih =>
    obtain ⟨here, rest⟩ := List.forall_mem_cons.mp filled
    exact List.forall_mem_cons.mpr ⟨here, ih rest⟩
  | case3 first others solid ih =>
    obtain ⟨here, rest⟩ := List.forall_mem_cons.mp filled
    have later := ih fun grapheme member => rest grapheme ((List.dropWhile_sublist _).subset member)
    exact List.forall_mem_cons.mpr ⟨List.append_ne_nil_of_left_ne_nil here _, later⟩

private theorem filled_clusters (pieces : List (Piece γ)) : ∀ cluster ∈ clusters pieces, cluster.text ≠ [] := by
  intro cluster member
  obtain ⟨piece, _, inside⟩ := List.mem_flatMap.mp member
  exact filled_clustersOf piece.color (Text.filled_graphemes (Letter.fused piece.text)) cluster inside

end Piece

/-- A stream that shows a text: all units of it, in clusters that are not empty. -/
structure Shows {γ : Type} [Letter γ] (pieces : List (Piece γ)) (text : List γ) : Prop where
  units : Letter.units (Piece.textOf pieces) = Letter.units text
  filled : ∀ piece ∈ pieces, piece.text ≠ []

namespace Shows

variable {γ : Type} [Letter γ] {pieces first second : List (Piece γ)} {text : List γ}

theorem segment (coloured : List (γ × Option String)) : Shows (Piece.segment coloured) (coloured.map Prod.fst) :=
  ⟨Piece.units_segment coloured, Piece.filled_clusters _⟩

private theorem of_texts (shows : Shows first text) (same : second.map Piece.text = first.map Piece.text) :
    Shows second text := by
  refine ⟨?_, ?_⟩
  · rw [Piece.textOf_eq_flatten, same, ← Piece.textOf_eq_flatten, shows.units]
  · intro piece member
    have found := List.mem_map_of_mem (f := Piece.text) member
    rw [same] at found
    obtain ⟨other, inside, text⟩ := List.mem_map.mp found
    rw [← text]
    exact shows.filled other inside

theorem eq_nil_iff (shows : Shows pieces text) : pieces = [] ↔ text = [] := by
  have told : Letter.units (Piece.textOf pieces) = [] ↔ Letter.units text = [] := by rw [shows.units]
  rw [Letter.units_eq_nil_iff, Letter.units_eq_nil_iff] at told
  rw [← told]
  cases pieces with
  | nil => exact iff_of_true rfl rfl
  | cons piece others =>
    have here := shows.filled piece (List.mem_cons_self ..)
    rw [Piece.textOf_cons]
    exact iff_of_false (List.cons_ne_nil _ _) (List.append_ne_nil_of_left_ne_nil here _)

end Shows

namespace Block

variable {θ α γ : Type} [Letter γ] {around : Surroundings θ α} {block : Block θ α γ} {rules : Rules} {grammar : Grammar}

theorem freshStream_shows {theme : θ} (known : around.registry.grammar? block.language = some grammar)
    (ruled : (around.theme theme).rules = some rules) : Shows (block.freshStream around theme) block.code := by
  obtain ⟨tokens, -, -, stream⟩ := freshStream_coloured known ruled
  rw [stream, ← map_fst_coloured block (around.theme theme) rules tokens]
  exact .segment _

variable [DecidableEq θ] [DecidableEq γ] [Add α] [Sub α] [Mul α] [Div α] [Neg α] [LT α] [DecidableLT α] [LE α] [DecidableLE α]
  [OfNat α 0] [OfNat α 1] [OfNat α 2] [FractionalPart α]

theorem Coherent.texts (coherent : Coherent around block) :
    (block.clusters around).value.map Piece.text = (block.freshStream around block.theme).map Piece.text := by
  cases phase : block.transition.phase with
  | idle => rw [coherent.still phase]
  | running oldTheme progress => rw [coherent.blended phase, map_text_blendPieces, coherent.standing]

theorem Reachable.shows (reached : Reachable around block) (known : around.registry.grammar? block.language = some grammar)
    (ruled : (around.theme block.theme).rules = some rules) : Shows (block.clusters around).value block.code :=
  (freshStream_shows known ruled).of_texts reached.coherent.texts

theorem Reachable.textOf_iff (reached : Reachable around block) (known : around.registry.grammar? block.language = some grammar)
    (ruled : (around.theme block.theme).rules = some rules) :
    ∃ tokens, around.registry.parse block.language block.dialect (Letter.chars block.code) = .ok tokens ∧
      (Piece.textOf (block.clusters around).value = block.code ↔
        Piece.PairsApart (block.coloured (around.theme block.theme) rules tokens)) := by
  obtain ⟨tokens, parsed, -, stream⟩ := freshStream_coloured known ruled
  refine ⟨tokens, parsed, ?_⟩
  rw [Piece.textOf_eq_flatten, reached.coherent.texts, ← Piece.textOf_eq_flatten, stream, ← Piece.textOf_segment_iff,
    map_fst_coloured]

/-- After any history, a block whose language has a grammar and whose theme has rules shows its code
unit by unit, in clusters that are not empty. It shows the code itself exactly if no two halves of a
pair stand side by side in one colour. A running transition changes the colours only, whatever became
of the old theme's stream. -/
theorem shows_code_iff (reached : Reachable around block) (known : around.registry.grammar? block.language = some grammar)
    (ruled : (around.theme block.theme).rules = some rules) :
    let shown := (block.clusters around).value
    (∃ tokens, around.registry.parse block.language block.dialect (Letter.chars block.code) = .ok tokens ∧
        (Piece.textOf shown = block.code ↔ Piece.PairsApart (block.coloured (around.theme block.theme) rules tokens))) ∧
      Letter.units (Piece.textOf shown) = Letter.units block.code ∧
      (∀ cluster ∈ shown, cluster.text ≠ []) ∧
      shown.map Piece.text = (block.standing around block.theme).map Piece.text := by
  obtain ⟨units, filled⟩ := reached.shows known ruled
  refine ⟨reached.textOf_iff known ruled, units, filled, ?_⟩
  rw [reached.coherent.texts, reached.coherent.standing]

/-- A transition away from a theme without rules, which replaced another one, with an easing that
leaves the unit interval. The code holds halves, but not a pair of them. -/
theorem shows_code_iff_superseded :
    let rules : Rules := ⟨[("tok-keyword", some "#111111")]⟩
    let around : Surroundings (Option Bool) Rat := ⟨.builtin,
      fun id => match id with
        | none => ⟨"bare", none, none⟩
        | some _ => ⟨"plain", some rules, none⟩,
      ⟨fun _ => ⟨0, 0, 0⟩, fun _ => ""⟩⟩
    let code : List CodePoint := "let e\u0301\n= ".toList.map .scalar ++ [.low 0x200, .high 0x3d]
    let block := (create (some false) [.scalar 'x'] .json "" none).run around
      [.tween none 2 linear, .advance 1, .setLanguage .javascript, .setCode code,
       .tween (some true) 4 fun share => some (share + 3), .clusters, .advance 1]
    let shown := (block.clusters around).value
    Reachable around block ∧ block.transition.phase = .running none (13 / 4) ∧
      around.registry.grammar? block.language = some .javascript ∧ (around.theme block.theme).rules = some rules ∧
      Piece.textOf shown = code ∧ (∀ cluster ∈ shown, cluster.text ≠ []) ∧
      shown.map Piece.text = (block.standing around block.theme).map Piece.text := by
  intro rules around code block shown
  have reached : Reachable around block := ⟨_, _, _, _, _, _, rfl⟩
  have running : block.transition.phase = .running none (13 / 4) := by decide +kernel
  have known : around.registry.grammar? block.language = some .javascript := by decide +kernel
  have ruled : (around.theme block.theme).rules = some rules := by decide +kernel
  have kept : block.code = code := by decide +kernel
  have unpaired : Letter.Unpaired code := by decide
  obtain ⟨⟨tokens, -, whole⟩, -, filled, texts⟩ := shows_code_iff reached known ruled
  refine ⟨reached, running, known, ruled, ?_, filled, texts⟩
  rw [← kept]
  refine whole.mpr (Piece.pairsApart_of_unpaired ?_)
  rwa [map_fst_coloured, kept]

/-- The two halves of a pair are shown as one letter. -/
theorem not_every_code_shown :
    ¬ ∀ (around : Surroundings Unit Rat) (block : Block Unit Rat CodePoint) (grammar : Grammar) (rules : Rules),
      Reachable around block → around.registry.grammar? block.language = some grammar →
        (around.theme block.theme).rules = some rules → Piece.textOf (block.clusters around).value = block.code := by
  intro law
  let around : Surroundings Unit Rat := ⟨.builtin, fun _ => ⟨"plain", some ⟨[]⟩, some "#808080"⟩, ⟨fun _ => ⟨0, 0, 0⟩, fun _ => ""⟩⟩
  let block : Block Unit Rat CodePoint := create () [.high 0x3d, .low 0x200] .javascript "" none
  have whole := law around block .javascript ⟨[]⟩ ⟨_, _, _, _, _, [], rfl⟩ rfl rfl
  have shown : Piece.textOf (block.clusters around).value = [.scalar '😀'] := by decide +kernel
  rw [shown] at whole
  cases whole

end Block

end Highlight
