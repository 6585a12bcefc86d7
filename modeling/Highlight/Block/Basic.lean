import Highlight.Document
import Highlight.Fade.Blend
import Highlight.Fade.Transition
import Highlight.Piece.Clusters
import Highlight.Piece.Painting
import Highlight.Text.Indentation
import Highlight.Theme.Basic

/-! A block of code with its language and theme. What is derived from these (the tokens, a
stream for each theme, the blended stream) is computed when it is first asked for and kept
until something it depends on changes. Themes are named by identities of any type `θ`, so
that two equal themes can still be told apart. -/

namespace Highlight

structure Surroundings (θ α : Type) where
  registry : Registry
  theme : θ → Theme
  colors : ColorModel α

inductive Event (θ : Type)
  | parsed
  | painted (theme : θ)
  | noticed (notice : Notice)

def Event.notice? {θ : Type} : Event θ → Option Notice
  | noticed notice => some notice
  | _ => none

structure Block (θ α : Type) (γ : Type := Char) where
  code : List γ
  language : Language
  dialect : String
  fallback : Option String
  theme : θ
  transition : Transition θ α
  /-- The outcome of parsing, once it is known: tokens, or nothing if parsing failed. -/
  tree : Option (Option (List Token)) := none
  /-- The streams that are known. -/
  streams : List (θ × List (Piece γ)) := []
  /-- The stream to draw, once it is known. -/
  final : Option (List (Piece γ)) := none

structure Reply (θ α β : Type) (γ : Type := Char) where
  value : β
  block : Block θ α γ
  events : List (Event θ) := []

namespace Block

section
variable {θ α γ : Type} [DecidableEq γ] [Letter γ] [OfNat α 0]

def create (theme : θ) (code : List γ) (language : Language) (dialect : String) (fallback : Option String) :
    Block θ α γ :=
  { code := Text.normalize code, language := language, dialect := dialect, fallback := fallback, theme := theme,
    transition := Transition.initial }

end

section
variable {θ α γ : Type}

def dropStreams (block : Block θ α γ) : Block θ α γ := { block with streams := [], final := none }

def dropTree (block : Block θ α γ) : Block θ α γ := { block.dropStreams with tree := none }

/-- Changes the code. Code that is the same after normalization is no change. -/
def setCode [DecidableEq γ] [Letter γ] (block : Block θ α γ) (code : List γ) : Block θ α γ :=
  let code := Text.normalize code
  if code = block.code then block else { block.dropTree with code := code }

def setLanguage (block : Block θ α γ) (language : Language) : Block θ α γ :=
  if language = block.language then block else { block.dropTree with language := language }

def setDialect (block : Block θ α γ) (dialect : String) : Block θ α γ :=
  if dialect = block.dialect then block else { block.dropTree with dialect := dialect }

def setFallback (block : Block θ α γ) (fallback : Option String) : Block θ α γ :=
  if fallback = block.fallback then block else { block.dropStreams with fallback := fallback }

/-- The colour of what no rule colours: the block's own if it has one, otherwise that of the
theme. -/
def fallbackFor (block : Block θ α γ) (theme : Theme) : Option String :=
  match block.fallback with
  | some color => if color = "" then theme.fallback else some color
  | none => theme.fallback

variable [DecidableEq θ]

def isLive (block : Block θ α γ) (theme : θ) : Bool := theme = block.theme || block.transition.phase.oldTheme? = some theme

def prune (block : Block θ α γ) : Block θ α γ :=
  { block with streams := block.streams.filter fun entry => block.isLive entry.1 }

def setTheme (block : Block θ α γ) (theme : θ) : Block θ α γ :=
  prune { block with transition := block.transition.stop, theme := theme, final := none }

section
variable [LE α] [DecidableLE α] [OfNat α 0]

def tween (around : Surroundings θ α) (block : Block θ α γ) (theme : θ) (duration : α) (easing : Easing α) :
    Reply θ α Unit γ :=
  { value := ()
    block := prune { block with
      transition := block.transition.start block.theme duration easing, theme := theme, final := none }
    events := (Transition.startNotices (fun id => (around.theme id).name) block.transition).map .noticed }

end

section
variable [Add α] [Div α] [LT α] [DecidableLT α] [LE α] [DecidableLE α] [OfNat α 1]

def advance (block : Block θ α γ) (delta : α) : Block θ α γ × Except EasingFailed Bool :=
  if !block.transition.isActive then (block, .ok false)
  else
    match block.transition.tick delta with
    | (transition, .ok true) => ({ block with transition := transition, final := none }, .ok true)
    | (transition, .ok false) => (prune { block with transition := transition, final := none }, .ok false)
    | (transition, .error failed) => ({ block with transition := transition }, .error failed)

end

/-- The tokens of the code, or nothing if it cannot be parsed. A failure is reported once. -/
def parsed [Letter γ] (around : Surroundings θ α) (block : Block θ α γ) : Reply θ α (Option (List Token)) γ :=
  match block.tree with
  | some tree => ⟨tree, block, []⟩
  | none =>
    match around.registry.parse block.language block.dialect (Letter.chars block.code) with
    | .ok tokens => ⟨some tokens, { block with tree := some (some tokens) }, [.parsed]⟩
    | .error _ => ⟨none, { block with tree := some none }, [.parsed, .noticed (.parseFailed block.language)]⟩

/-- The stream of the code in one theme. A theme in which nothing can be looked up gives an
empty one. -/
def paintStream [Letter γ] (around : Surroundings θ α) (block : Block θ α γ) (theme : θ) (tokens : List Token) :
    List (Piece γ) × List (Event θ) :=
  let palette := around.theme theme
  match palette.paint (block.fallbackFor palette) block.code (classRanges tokens) with
  | .ok (cells, notices) => (Piece.clusters (Piece.merge cells), .painted theme :: notices.map .noticed)
  | .error _ => ([], [.painted theme, .noticed (.highlightFailed block.language palette.name)])

def stream [Letter γ] (around : Surroundings θ α) (block : Block θ α γ) (theme : θ) : Reply θ α (List (Piece γ)) γ :=
  match block.streams.lookup theme with
  | some pieces => ⟨pieces, block, []⟩
  | none =>
    let tree := block.parsed around
    let (pieces, events) := match tree.value with
      | some tokens => paintStream around block theme tokens
      | none => ([], [])
    ⟨pieces, { tree.block with streams := (theme, pieces) :: tree.block.streams }, tree.events ++ events⟩

variable [DecidableEq γ] [Letter γ] [Add α] [Sub α] [Mul α] [Div α] [Neg α] [LT α] [DecidableLT α] [LE α]
  [DecidableLE α] [OfNat α 0] [OfNat α 1] [OfNat α 2] [FractionalPart α]

/-- The clusters to draw: the stream of the active theme, blended with that of the old theme
while a transition is running. -/
def clusters (around : Surroundings θ α) (block : Block θ α γ) : Reply θ α (List (Piece γ)) γ :=
  match block.final with
  | some pieces => ⟨pieces, block, []⟩
  | none =>
    let new := block.stream around block.theme
    match new.block.transition.phase with
    | .idle => ⟨new.value, { new.block with final := some new.value }, new.events⟩
    | .running oldTheme progress =>
      let old := new.block.stream around oldTheme
      let (pieces, notices) := blend around.colors new.value old.value (some progress)
      ⟨pieces, { old.block with final := some pieces }, new.events ++ old.events ++ notices.map .noticed⟩

end

end Block

end Highlight
