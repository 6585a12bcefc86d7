import Highlight.Proofs.BlockCoherence
import Highlight.Proofs.DocumentTiling
import Highlight.Proofs.Painting
import Highlight.Proofs.PairsApart

/-! Where the colour of a character comes from. Tokens are disjoint, so at most one of them lies
over a character, and of all painting only that token's range can show there. Merging and
clustering keep the letters and their colours, but for two halves of a pair in one colour. -/

namespace Highlight

/-- The exact label is tried first and then its classes in their order. -/
theorem Rules.resolve?_eq (rules : Rules) (label : String) :
    rules.resolve? label = (label :: Rules.classes label).findSome? rules.color? := by
  rw [Rules.resolve?, List.findSome?_cons]
  cases rules.color? label <;> rfl

/-- The colour of the character at an index: what the rules say about the one token over it, or
the fallback colour. -/
def colorAt (rules : Rules) (fallback : Option String) (tokens : List Token) (index : Nat) : Option String :=
  match tokens.filter fun token => token.covers index with
  | [token] => ((token.kind.classList :: Rules.classes token.kind.classList).findSome? rules.color?).or fallback
  | _ => fallback

section
variable {tokens : List Token} {token : Token} {index : Nat}

/-- Tokens that stand behind one over an index are not over it. -/
theorem filter_covers_behind (covered : token.covers index = true)
    (behind : ∀ other ∈ tokens, token.stop ≤ other.start) : tokens.filter (fun other => other.covers index) = [] := by
  apply List.filter_eq_nil_iff.mpr
  intro other member both
  have first := Token.covers_iff.mp covered
  have second := Token.covers_iff.mp both
  have apart := behind other member
  omega

private theorem filter_covers_single (ordered : tokens.Pairwise fun a b => a.stop ≤ b.start) :
    (tokens.filter fun token => token.covers index).length ≤ 1 := by
  induction tokens with
  | nil => simp
  | cons token others ih =>
    obtain ⟨behind, rest⟩ := List.pairwise_cons.mp ordered
    cases covered : token.covers index with
    | true => simp [covered, filter_covers_behind covered behind]
    | false => simpa [List.filter_cons, covered] using ih rest

private theorem classRanges_cons (token : Token) (others : List Token) :
    classRanges (token :: others) = (if token.text.isEmpty then [] else [token.range]) ++ classRanges others := by
  rw [classRanges_eq, classRanges_eq, List.filter_cons]
  cases token.text.isEmpty <;> simp

/-- Painting disjoint tokens: the range that shows at an index is that of the token over it. -/
theorem last_range_is_token (rules : Rules) (ordered : tokens.Pairwise fun a b => a.stop ≤ b.start) :
    (classRanges tokens).reverse.findSome? (Range.colorAt? rules index) =
      (tokens.filter fun token => token.covers index).head?.bind fun token => rules.resolve? token.kind.classList := by
  induction tokens with
  | nil => rfl
  | cons token others ih =>
    obtain ⟨behind, rest⟩ := List.pairwise_cons.mp ordered
    rw [classRanges_cons, List.reverse_append, List.findSome?_append, ih rest]
    cases covered : token.covers index with
    | true =>
      have painted : Range.colorAt? rules index token.range = rules.resolve? token.kind.classList := if_pos covered
      rw [filter_covers_behind covered behind, Token.filled_of_covers covered]
      simp [covered, painted, filter_covers_behind covered behind]
    | false =>
      have free : Range.colorAt? rules index token.range = none := if_neg (Bool.eq_false_iff.mp covered)
      have nothing : (if token.text.isEmpty then [] else [token.range]).reverse.findSome? (Range.colorAt? rules index) = none := by
        cases token.text.isEmpty <;> simp [free]
      rw [nothing, Option.or_none, List.filter_cons, covered]
      rfl

private theorem colorAt_eq (rules : Rules) (fallback : Option String)
    (ordered : tokens.Pairwise fun a b => a.stop ≤ b.start) :
    colorAt rules fallback tokens index =
      ((classRanges tokens).reverse.findSome? (Range.colorAt? rules index)).or fallback := by
  have single : (tokens.filter fun token => token.covers index).length ≤ 1 := filter_covers_single ordered
  rw [last_range_is_token rules ordered, colorAt]
  generalize (tokens.filter fun token => token.covers index) = covering at single ⊢
  match covering, single with
  | [], _ => rfl
  | [token], _ => simp only [List.head?_cons, Option.bind_some, Rules.resolve?_eq]
  | _ :: _ :: _, impossible => simp at impossible

end

namespace Piece

private theorem paint_tokens {γ : Type} (rules : Rules) (fallback : Option String) (text : List γ) {tokens : List Token}
    (ordered : tokens.Pairwise fun a b => a.stop ≤ b.start) :
    (paint rules (unpainted fallback text) (classRanges tokens)).1 =
      text.mapIdx fun index c => ⟨[c], colorAt rules fallback tokens index⟩ := by
  apply List.ext_getElem?
  intro index
  rw [paint_getElem?, unpainted_getElem?, Option.map_map, List.getElem?_mapIdx]
  congr 1
  funext c
  rw [colorAt_eq rules fallback ordered]
  cases (classRanges tokens).reverse.findSome? (Range.colorAt? rules index) <;> rfl

end Piece

namespace Block

variable {θ α γ : Type}

/-- The code of a block in the colours of a theme: each letter has the colour of the one token over it, or
else the block's own fallback colour, unless that is not set or empty and the theme's stands instead. -/
def coloured (block : Block θ α γ) (theme : Theme) (rules : Rules) (tokens : List Token) : List (γ × Option String) :=
  let fallback := if block.fallback = none ∨ block.fallback = some "" then theme.fallback else block.fallback
  block.code.mapIdx fun index c => (c, colorAt rules fallback tokens index)

theorem map_fst_coloured (block : Block θ α γ) (theme : Theme) (rules : Rules) (tokens : List Token) :
    (block.coloured theme rules tokens).map Prod.fst = block.code := Piece.map_fst_mapIdx block.code _

theorem fallbackFor_eq (block : Block θ α γ) (theme : Theme) :
    block.fallbackFor theme = if block.fallback = none ∨ block.fallback = some "" then theme.fallback else block.fallback := by
  unfold fallbackFor
  cases block.fallback with
  | none => rfl
  | some color => simp

variable [Letter γ] {around : Surroundings θ α} {block : Block θ α γ} {theme : θ} {rules : Rules} {grammar : Grammar}

private theorem paintStream_eq (ruled : (around.theme theme).rules = some rules) {tokens : List Token}
    (ordered : tokens.Pairwise fun a b => a.stop ≤ b.start) :
    (paintStream around block theme tokens).1 = Piece.segment (block.code.mapIdx fun index c =>
      (c, colorAt rules (block.fallbackFor (around.theme theme)) tokens index)) := by
  simp only [paintStream, Theme.paint, ruled]
  rw [Piece.paint_tokens rules _ _ ordered, Piece.segment, List.mapIdx_eq_zipIdx_map, List.mapIdx_eq_zipIdx_map, List.map_map]
  rfl

/-- What a block shows in one theme: the clusters of its code, coloured letter by letter. -/
theorem freshStream_eq (known : around.registry.grammar? block.language = some grammar)
    (ruled : (around.theme theme).rules = some rules) :
    block.freshStream around theme = Piece.segment (block.code.mapIdx fun index c =>
      (c, colorAt rules (block.fallbackFor (around.theme theme))
        (grammar.tokens block.dialect (Letter.chars block.code)) index)) := by
  have tree : block.freshTree around = some (grammar.tokens block.dialect (Letter.chars block.code)) := by
    simp only [freshTree, Registry.parse, known]
    rfl
  simp only [freshStream, tree]
  exact paintStream_eq ruled (grammar.tokens_tile _ _).ordered

theorem freshStream_coloured (known : around.registry.grammar? block.language = some grammar)
    (ruled : (around.theme theme).rules = some rules) :
    ∃ tokens, around.registry.parse block.language block.dialect (Letter.chars block.code) = .ok tokens ∧
      (∀ index : Nat, (tokens.filter fun token => token.covers index).length ≤ 1) ∧
      block.freshStream around theme = Piece.segment (block.coloured (around.theme theme) rules tokens) := by
  refine ⟨grammar.tokens block.dialect (Letter.chars block.code), ?_, ?_, ?_⟩
  · simp only [Registry.parse, known]
  · exact fun index => filter_covers_single (grammar.tokens_tile _ _).ordered
  · rw [freshStream_eq known ruled, fallbackFor_eq]
    rfl

variable [DecidableEq θ] [DecidableEq γ] [Add α] [Sub α] [Mul α] [Div α] [Neg α] [LT α] [DecidableLT α] [LE α] [DecidableLE α]
  [OfNat α 0] [OfNat α 1] [OfNat α 2] [FractionalPart α]

/-- A block that stands still shows every letter of its code in the colour that the theme gives to the
one token over it, or in the fallback colour: that of the block if it is set and not empty, and that
of the theme otherwise. It does so exactly if no two halves of a pair stand side by side in one
colour, for these come together. -/
theorem still_block_colours (reached : Reachable around block) (still : block.transition.phase = .idle)
    (known : around.registry.grammar? block.language = some grammar)
    (ruled : (around.theme block.theme).rules = some rules) :
    ∃ tokens, around.registry.parse block.language block.dialect (Letter.chars block.code) = .ok tokens ∧
      (∀ index : Nat, (tokens.filter fun token => token.covers index).length ≤ 1) ∧
      let fallback :=
        if block.fallback = none ∨ block.fallback = some "" then (around.theme block.theme).fallback else block.fallback
      let coloured := block.code.mapIdx fun index c => (c, colorAt rules fallback tokens index)
      Piece.chars (block.clusters around).value = coloured ↔ Piece.PairsApart coloured := by
  obtain ⟨tokens, parsed, single, stream⟩ := freshStream_coloured known ruled
  refine ⟨tokens, parsed, single, ?_⟩
  rw [reached.coherent.still still, stream]
  exact Piece.chars_segment_iff _

/-- A code that holds halves, but no pair of them, in a block that has its own fallback colour. The colour
is emptied later on, and then the theme's stands. -/
theorem still_block_colours_halves :
    let night : Theme := ⟨"night", some ⟨[("tok-keyword", some "#f0f0f0")]⟩, some "#808080"⟩
    let around : Surroundings Bool Rat := ⟨.builtin, fun dark => if dark then night else ⟨"bare", none, none⟩,
      ⟨fun _ => ⟨0, 0, 0⟩, fun _ => ""⟩⟩
    let code : List CodePoint := "let ".toList.map .scalar ++ [.low 0x200, .high 0x3d, .scalar ' ', .low 0x200]
    let own := (create false code .json "" (some "#123456")).run around
      [.setLanguage .javascript, .clusters, .tween true 2 linear, .setTheme true]
    let emptied := own.run around [.clusters, .setFallback (some "")]
    (Reachable around own ∧ own.transition.phase = .idle ∧ around.registry.grammar? own.language = some .javascript ∧
      (around.theme own.theme).rules = night.rules ∧
      ∃ tokens, around.registry.parse own.language own.dialect (Letter.chars own.code) = .ok tokens ∧
        Piece.chars (own.clusters around).value = code.mapIdx fun index c =>
          (c, colorAt ⟨[("tok-keyword", some "#f0f0f0")]⟩ (some "#123456") tokens index)) ∧
    (Reachable around emptied ∧ emptied.transition.phase = .idle ∧
      around.registry.grammar? emptied.language = some .javascript ∧ (around.theme emptied.theme).rules = night.rules ∧
      ∃ tokens, around.registry.parse emptied.language emptied.dialect (Letter.chars emptied.code) = .ok tokens ∧
        Piece.chars (emptied.clusters around).value = code.mapIdx fun index c =>
          (c, colorAt ⟨[("tok-keyword", some "#f0f0f0")]⟩ (some "#808080") tokens index)) := by
  intro night around code own emptied
  have reached : Reachable around own := ⟨_, _, _, _, _, _, rfl⟩
  have later : Reachable around emptied := reached.run [.clusters, .setFallback (some "")]
  have still : own.transition.phase = .idle ∧ emptied.transition.phase = .idle := by decide +kernel
  have themes : own.theme = true ∧ emptied.theme = true := by decide +kernel
  have languages : own.language = .javascript ∧ emptied.language = .javascript := by decide +kernel
  have codes : own.code = code ∧ emptied.code = code := by decide +kernel
  have fallbacks : own.fallback = some "#123456" ∧ emptied.fallback = some "" := by decide +kernel
  have ruled : (around.theme own.theme).rules = night.rules ∧ (around.theme emptied.theme).rules = night.rules := by
    rw [themes.1, themes.2]
    exact ⟨rfl, rfl⟩
  have known : around.registry.grammar? own.language = some .javascript ∧
      around.registry.grammar? emptied.language = some .javascript := by
    rw [languages.1, languages.2]
    exact ⟨rfl, rfl⟩
  have unpaired : Letter.Unpaired code := by decide
  have apart (color : Nat → Option String) : Piece.PairsApart (code.mapIdx fun index c => (c, color index)) := by
    apply Piece.pairsApart_of_unpaired
    rwa [Piece.map_fst_mapIdx]
  refine ⟨⟨reached, still.1, known.1, ruled.1, ?_⟩, ⟨later, still.2, known.2, ruled.2, ?_⟩⟩
  · obtain ⟨tokens, parsed, -, shown⟩ := still_block_colours reached still.1 known.1 ruled.1
    rw [codes.1, fallbacks.1] at shown
    exact ⟨tokens, parsed, shown.mpr (apart _)⟩
  · obtain ⟨tokens, parsed, -, shown⟩ := still_block_colours later still.2 known.2 ruled.2
    rw [codes.2, fallbacks.2, themes.2] at shown
    exact ⟨tokens, parsed, shown.mpr (apart _)⟩

/-- A code of two halves that make up a pair is shown as one letter. -/
theorem not_every_letter_shown :
    ¬ ∀ (around : Surroundings Unit Rat) (block : Block Unit Rat CodePoint) (grammar : Grammar) (rules : Rules),
      Reachable around block → block.transition.phase = .idle → around.registry.grammar? block.language = some grammar →
        (around.theme block.theme).rules = some rules →
        ∃ tokens, around.registry.parse block.language block.dialect (Letter.chars block.code) = .ok tokens ∧
          let fallback :=
            if block.fallback = none ∨ block.fallback = some "" then (around.theme block.theme).fallback else block.fallback
          Piece.chars (block.clusters around).value = block.code.mapIdx fun index c => (c, colorAt rules fallback tokens index) := by
  intro law
  let around : Surroundings Unit Rat := ⟨.builtin, fun _ => ⟨"plain", some ⟨[]⟩, some "#808080"⟩, ⟨fun _ => ⟨0, 0, 0⟩, fun _ => ""⟩⟩
  let block : Block Unit Rat CodePoint := create () [.high 0x3d, .low 0x200] .javascript "" none
  obtain ⟨tokens, -, shown⟩ := law around block .javascript ⟨[]⟩ ⟨_, _, _, _, _, [], rfl⟩ rfl rfl rfl
  have one : (Piece.chars (block.clusters around).value).length = 1 := by decide +kernel
  rw [shown, List.length_mapIdx] at one
  cases one

end Block

end Highlight
