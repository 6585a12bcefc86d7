import Highlight.Block.Display

/-! What can happen to a block, one operation after the other. Reading a block is an operation
too, since it fills the caches. The induction over a history is done here once. -/

namespace Highlight

inductive Operation (θ α : Type) (γ : Type := Char)
  | setCode (code : List γ)
  | setLanguage (language : Language)
  | setDialect (dialect : String)
  | setFallback (fallback : Option String)
  | setTheme (theme : θ)
  | tween (theme : θ) (duration : α) (easing : Easing α)
  | advance (delta : α)
  | clusters
  | size (measurer : Measurer α γ)
  | draw (measurer : Measurer α γ)

/-- Whether an operation asks for what the block shows. Only these do any work. -/
def Operation.reads {θ α γ : Type} : Operation θ α γ → Bool
  | clusters | size _ | draw _ => true
  | _ => false

namespace Block

variable {θ α γ : Type} [DecidableEq θ] [DecidableEq γ] [Letter γ] [Add α] [Sub α] [Mul α] [Div α] [Neg α] [LT α]
  [DecidableLT α] [LE α] [DecidableLE α] [OfNat α 0] [OfNat α 1] [OfNat α 2] [FractionalPart α]

/-- The block after an operation, and what happened on the way. A tick whose easing fails is an
operation like any other. -/
def perform (around : Surroundings θ α) (block : Block θ α γ) : Operation θ α γ → Block θ α γ × List (Event θ)
  | .setCode code => (block.setCode code, [])
  | .setLanguage language => (block.setLanguage language, [])
  | .setDialect dialect => (block.setDialect dialect, [])
  | .setFallback fallback => (block.setFallback fallback, [])
  | .setTheme theme => (block.setTheme theme, [])
  | .tween theme duration easing => ((block.tween around theme duration easing).block, (block.tween around theme duration easing).events)
  | .advance delta => ((block.advance delta).1, [])
  | .clusters => ((block.clusters around).block, (block.clusters around).events)
  | .size measurer => ((block.size around measurer).block, (block.size around measurer).events)
  | .draw measurer => ((block.draw around measurer).block, (block.draw around measurer).events)

def run (around : Surroundings θ α) (block : Block θ α γ) (operations : List (Operation θ α γ)) : Block θ α γ :=
  operations.foldl (fun block operation => (block.perform around operation).1) block

theorem run_keeps {around : Surroundings θ α} {property : Block θ α γ → Prop}
    (step : ∀ block operation, property block → property (block.perform around operation).1)
    {block : Block θ α γ} (start : property block) (operations : List (Operation θ α γ)) :
    property (block.run around operations) := by
  induction operations generalizing block with
  | nil => exact start
  | cons operation others ih => exact ih (step block operation start)

def Reachable (around : Surroundings θ α) (block : Block θ α γ) : Prop :=
  ∃ theme code language dialect fallback operations,
    block = (create theme code language dialect fallback).run around operations

def moments (around : Surroundings θ α) (block : Block θ α γ) : List (Operation θ α γ) → List (Block θ α γ)
  | [] => [block]
  | operation :: others => block :: moments around (block.perform around operation).1 others

def log (around : Surroundings θ α) (block : Block θ α γ) : List (Operation θ α γ) → List (Event θ)
  | [] => []
  | operation :: others => (block.perform around operation).2 ++ log around (block.perform around operation).1 others

variable {around : Surroundings θ α} {block : Block θ α γ} {operation : Operation θ α γ}

theorem perform_of_reads (reads : operation.reads = true) :
    block.perform around operation = ((block.clusters around).block, (block.clusters around).events) := by
  cases operation with
  | clusters | size _ | draw _ => rfl
  | setCode _ | setLanguage _ | setDialect _ | setFallback _ | setTheme _ | tween _ _ _ | advance _ => cases reads

private theorem mem_moments_self (operations : List (Operation θ α γ)) : block ∈ block.moments around operations := by
  cases operations <;> exact List.mem_cons_self ..

theorem Reachable.perform (reached : Reachable around block) (operation : Operation θ α γ) :
    Reachable around (block.perform around operation).1 := by
  obtain ⟨theme, code, language, dialect, fallback, operations, rfl⟩ := reached
  refine ⟨theme, code, language, dialect, fallback, operations ++ [operation], ?_⟩
  simp only [run, List.foldl_append, List.foldl_cons, List.foldl_nil]

theorem Reachable.run (reached : Reachable around block) (operations : List (Operation θ α γ)) :
    Reachable around (block.run around operations) :=
  run_keeps (fun _ operation reached => reached.perform operation) reached operations

/-- Work that is done by the first reading and not again while a property holds. -/
theorem work_in_stretch {β : Type} {holds : Block θ α γ → Prop} {done : Block θ α γ → Bool} {work : Event θ → Option β} {due : List β}
    (reading : ∀ block operation, Reachable around block → holds block → operation.reads = true →
      (block.perform around operation).2.filterMap work = (if done block then [] else due) ∧
        done (block.perform around operation).1 = true)
    (silent : ∀ block operation, Reachable around block → holds block → holds (block.perform around operation).1 →
      operation.reads = false →
        (block.perform around operation).2.filterMap work = [] ∧ done (block.perform around operation).1 = done block)
    (reached : Reachable around block) {operations : List (Operation θ α γ)}
    (steady : ∀ moment ∈ block.moments around operations, holds moment) :
    (block.log around operations).filterMap work =
        (if done block then [] else if operations.any Operation.reads then due else []) ∧
      done (block.run around operations) = (done block || operations.any Operation.reads) := by
  induction operations generalizing block with
  | nil => cases start : done block <;> simp [log, run, start]
  | cons operation others ih =>
    obtain ⟨here, later⟩ := List.forall_mem_cons.mp steady
    obtain ⟨total, final⟩ := ih (reached.perform operation) later
    rw [log, List.filterMap_append, total, List.any_cons]
    change _ ∧ done ((block.perform around operation).1.run around others) = _
    rw [final]
    cases reads : operation.reads with
    | true =>
      obtain ⟨spent, finished⟩ := reading block operation reached here reads
      simp only [spent, finished, if_true, List.append_nil, Bool.true_or, Bool.or_true, and_self]
    | false =>
      obtain ⟨spent, kept⟩ := silent block operation reached here (later _ (mem_moments_self others)) reads
      simp only [spent, kept, List.nil_append, Bool.false_or, and_self]

end Block

end Highlight
