import Highlight.Fade.Transition
import Mathlib.Algebra.Order.BigOperators.Group.List
import Mathlib.Algebra.Order.Field.Basic
import Mathlib.Algebra.Order.Field.Rat
import Mathlib.Data.List.Induction

/-! What a run of starts, ticks and stops leaves behind is told by its last start and by the time
that has passed since. The clock of a transition is hidden: it goes on in ticks whose easing
fails, and keeps its old time while nothing is running. -/

namespace Highlight.Transition

inductive Call (θ α : Type)
  | start (oldTheme : θ) (duration : α) (easing : Easing α)
  | tick (delta : α)
  | stop

variable {θ : Type}

def perform (transition : Transition θ Rat) : Call θ Rat → Transition θ Rat
  | .start oldTheme duration easing => transition.start oldTheme duration easing
  | .tick delta => (transition.tick delta).1
  | .stop => transition.stop

def run (calls : List (Call θ Rat)) : Transition θ Rat := calls.foldl perform initial

def ticks (deltas : List Rat) : List (Call θ Rat) := deltas.map .tick

/-- A run is over if it has no start, if its last start or stop is a stop or a start without
duration, or if a tick since its last start has brought the time to the duration. -/
inductive Over : List (Call θ Rat) → Prop
  | unstarted {calls : List (Call θ Rat)}
      (never : ∀ oldTheme duration easing, .start oldTheme duration easing ∉ calls) : Over calls
  | stopped (before : List (Call θ Rat)) (deltas : List Rat) : Over (before ++ .stop :: ticks deltas)
  | instant (before : List (Call θ Rat)) (oldTheme : θ) (easing : Easing Rat) (deltas : List Rat) {duration : Rat}
      (none : duration ≤ 0) : Over (before ++ .start oldTheme duration easing :: ticks deltas)
  | elapsed (before : List (Call θ Rat)) (oldTheme : θ) (easing : Easing Rat) (later : List Rat) {duration : Rat}
      {deltas : List Rat} (reached : duration ≤ deltas.sum) :
      Over (before ++ .start oldTheme duration easing :: ticks (deltas ++ later))

def Returns (calls : List (Call θ Rat)) (delta : Rat) : Prop := ∃ still, ((run calls).tick delta).2 = .ok still

/-- The progress that ticks have made behind the calls that end with their start. It is zero as long
as no tick has returned, and then the eased share of all the time up to the last one that has. -/
inductive Progress (begun : List (Call θ Rat)) (duration : Rat) (easing : Easing Rat) (deltas : List Rat) : Rat → Prop
  | unchanged (failed : ∀ part next, part ++ [next] <+: deltas → ¬ Returns (begun ++ ticks part) next) :
      Progress begun duration easing deltas 0
  | last {early : List Rat} {delta progress : Rat} (reached : early ++ [delta] <+: deltas)
      (returned : Returns (begun ++ ticks early) delta)
      (failed : ∀ part next, early.length < part.length → part ++ [next] <+: deltas → ¬ Returns (begun ++ ticks part) next)
      (value : easing ((early ++ [delta]).sum / duration) = some progress) :
      Progress begun duration easing deltas progress

theorem run_append (calls more : List (Call θ Rat)) : run (calls ++ more) = more.foldl perform (run calls) :=
  List.foldl_append

private theorem ticks_append (deltas more : List Rat) :
    (ticks (deltas ++ more) : List (Call θ Rat)) = ticks deltas ++ ticks more :=
  List.map_append

private theorem run_tick (calls : List (Call θ Rat)) (delta : Rat) :
    run (calls ++ [.tick delta]) = ((run calls).tick delta).1 := run_append ..

private theorem tick_idle {transition : Transition θ Rat} (idle : transition.phase = .idle) (delta : Rat) :
    transition.tick delta = (transition, .ok false) := by
  rw [tick, idle]

/-- All that a tick can do while a transition is running. -/
theorem tick_running {duration : Rat} (positive : 0 < duration) (oldTheme : θ) (progress elapsed : Rat)
    (easing : Easing Rat) (delta : Rat) :
    tick (⟨.running oldTheme progress, duration, elapsed, easing⟩ : Transition θ Rat) delta =
      if duration ≤ elapsed + delta then (⟨.idle, duration, elapsed + delta, easing⟩, .ok false)
      else match easing ((elapsed + delta) / duration) with
        | some value => (⟨.running oldTheme value, duration, elapsed + delta, easing⟩, .ok true)
        | none => (⟨.running oldTheme progress, duration, elapsed + delta, easing⟩, .error {}) := by
  have reached : 1 ≤ (elapsed + delta) / duration ↔ duration ≤ elapsed + delta := one_le_div positive
  by_cases past : duration ≤ elapsed + delta
  · have share : lesser 1 ((elapsed + delta) / duration) = 1 := if_neg (not_lt.mpr (reached.mpr past))
    simp only [tick, share, le_refl, if_true, past]
  · have below := not_le.mp (mt reached.mp past)
    have share : lesser 1 ((elapsed + delta) / duration) = (elapsed + delta) / duration := if_pos below
    simp only [tick, share, not_le.mpr below, if_false, past]
    cases easing ((elapsed + delta) / duration) with
    | some value | none => rfl

section
variable {calls before : List (Call θ Rat)} {oldTheme : θ} {duration : Rat} {easing : Easing Rat} {deltas : List Rat}

private theorem run_ticks_idle (idle : (run calls).phase = .idle) (deltas : List Rat) : run
    (calls ++ ticks deltas) = run calls := by
  induction deltas using List.reverseRecOn with
  | nil => rw [ticks, List.map_nil, List.append_nil]
  | append_singleton deltas delta ih =>
    rw [ticks_append, ← List.append_assoc]
    change run (calls ++ ticks deltas ++ [.tick delta]) = run calls
    rw [run_tick, ih, tick_idle idle]

private theorem idle_of_unstarted (never : ∀ oldTheme duration easing, .start oldTheme duration easing ∉ calls) :
    (run calls).phase = .idle := by
  induction calls using List.reverseRecOn with
  | nil => rfl
  | append_singleton calls call ih =>
    have idle := ih fun oldTheme duration easing member => never oldTheme duration easing (List.mem_append_left _ member)
    cases call with
    | start oldTheme duration easing => exact absurd (List.mem_append_right _ (List.mem_singleton_self _)) (never oldTheme duration easing)
    | tick delta => rw [run_tick, tick_idle idle, idle]
    | stop => rw [run_append]; rfl

private theorem run_instant (none : duration ≤ 0) (deltas : List Rat) :
    (run (before ++ .start oldTheme duration easing :: ticks deltas)).phase = .idle := by
  have idle : (run (before ++ [.start oldTheme duration easing])).phase = .idle := by
    rw [run_append]
    exact congrArg Transition.phase (if_pos none)
  rw [List.append_cons, run_ticks_idle idle, idle]

theorem Progress.returned {begun : List (Call θ Rat)} {delta value : Rat}
    (eased : easing ((deltas ++ [delta]).sum / duration) = some value) (returned : Returns (begun ++ ticks deltas) delta) :
    Progress begun duration easing (deltas ++ [delta]) value := by
  refine .last (List.prefix_refl _) returned ?_ eased
  intro part next longer inside
  have short := inside.length_le
  simp only [List.length_append, List.length_singleton] at short
  omega

theorem Progress.failed {begun : List (Call θ Rat)} {progress delta : Rat}
    (made : Progress begun duration easing deltas progress) (failed : ¬ Returns (begun ++ ticks deltas) delta) :
    Progress begun duration easing (deltas ++ [delta]) progress := by
  -- a tick of the longer list is the new one or was there before
  have split : ∀ part next, part ++ [next] <+: deltas ++ [delta] →
      part = deltas ∧ next = delta ∨ part ++ [next] <+: deltas := by
    intro part next inside
    refine (List.prefix_concat_iff.mp inside).imp_left fun same => ?_
    obtain ⟨first, last⟩ := List.append_inj' same rfl
    exact ⟨first, List.singleton_inj.mp last⟩
  cases made with
  | unchanged never =>
    refine .unchanged fun part next inside => ?_
    rcases split part next inside with ⟨rfl, rfl⟩ | earlier
    · exact failed
    · exact never part next earlier
  | last reached returned never value =>
    refine .last (reached.trans (List.prefix_append ..)) returned ?_ value
    intro part next longer inside
    rcases split part next inside with ⟨rfl, rfl⟩ | earlier
    · exact failed
    · exact never part next longer earlier

/-- What ticks leave behind a start: nothing is running once one of them has brought the time to the
duration. Until then the clock shows the sum of them all, those that failed too. -/
theorem run_ticks (positive : 0 < duration) (before : List (Call θ Rat)) (oldTheme : θ) (easing : Easing Rat)
    (deltas : List Rat) :
    let calls := before ++ .start oldTheme duration easing :: ticks deltas
    (∃ part, part <+: deltas ∧ duration ≤ part.sum) ∧ (run calls).phase = .idle ∨
      (∀ part, part <+: deltas → part.sum < duration) ∧ ∃ progress,
        run calls = ⟨.running oldTheme progress, duration, deltas.sum, easing⟩ ∧
          Progress (before ++ [.start oldTheme duration easing]) duration easing deltas progress := by
  intro calls
  have cut : calls = before ++ [.start oldTheme duration easing] ++ ticks deltas := List.append_cons ..
  rw [cut]
  clear cut calls
  induction deltas using List.reverseRecOn with
  | nil =>
    refine Or.inr ⟨?_, 0, ?_, .unchanged ?_⟩
    · intro part inside
      rwa [List.prefix_nil.mp inside]
    · rw [ticks, List.map_nil, List.append_nil]
      exact (run_append before _).trans (if_neg (not_le.mpr positive))
    · intro part next inside
      simp at inside
  | append_singleton deltas delta ih =>
    have step : run (before ++ [.start oldTheme duration easing] ++ ticks (deltas ++ [delta])) =
        ((run (before ++ [.start oldTheme duration easing] ++ ticks deltas)).tick delta).1 := by
      rw [← run_tick, ticks_append, ← List.append_assoc]
      rfl
    rcases ih with ⟨⟨part, inside, reached⟩, idle⟩ | ⟨below, progress, running, made⟩
    · refine Or.inl ⟨⟨part, inside.trans (List.prefix_append ..), reached⟩, ?_⟩
      rw [step, tick_idle idle, idle]
    · have total : deltas.sum + delta = (deltas ++ [delta]).sum := by simp
      have ticked := tick_running positive oldTheme progress deltas.sum easing delta
      rw [← running, total] at ticked
      by_cases past : duration ≤ (deltas ++ [delta]).sum
      · rw [if_pos past] at ticked
        exact Or.inl ⟨⟨_, List.prefix_refl _, past⟩, by rw [step, ticked]⟩
      rw [if_neg past] at ticked
      have stillBelow : ∀ part, part <+: deltas ++ [delta] → part.sum < duration := by
        intro part inside
        rcases List.prefix_concat_iff.mp inside with rfl | earlier
        · exact not_le.mp past
        · exact below part earlier
      cases eased : easing ((deltas ++ [delta]).sum / duration) with
      | some value =>
        rw [eased] at ticked
        exact Or.inr ⟨stillBelow, value, by rw [step, ticked], .returned eased ⟨true, by rw [ticked]⟩⟩
      | none =>
        rw [eased] at ticked
        refine Or.inr ⟨stillBelow, progress, by rw [step, ticked], made.failed ?_⟩
        rintro ⟨still, same⟩
        rw [ticked] at same
        cases same

end

section
variable {calls : List (Call θ Rat)}

theorem Over.idle (finished : Over calls) : (run calls).phase = .idle := by
  cases finished with
  | unstarted never => exact idle_of_unstarted never
  | stopped before deltas =>
    have idle : (run (before ++ [.stop])).phase = .idle := by
      rw [run_append]
      rfl
    rw [List.append_cons, run_ticks_idle idle, idle]
  | instant before oldTheme easing deltas none => exact run_instant none deltas
  | @elapsed before oldTheme easing later duration deltas reached =>
    rcases le_or_gt duration 0 with none | positive
    · exact run_instant none _
    · rcases run_ticks positive before oldTheme easing (deltas ++ later) with ⟨-, idle⟩ | ⟨below, -⟩
      · exact idle
      · exact absurd reached (not_le.mpr (below deltas (List.prefix_append ..)))

private theorem last_start_or_stop (calls : List (Call θ Rat)) :
    (∀ oldTheme duration easing, .start oldTheme duration easing ∉ calls) ∨ ∃ before deltas,
      calls = before ++ .stop :: ticks deltas ∨
        ∃ oldTheme duration easing, calls = before ++ .start oldTheme duration easing :: ticks deltas := by
  induction calls using List.reverseRecOn with
  | nil => exact Or.inl fun _ _ _ none => absurd none List.not_mem_nil
  | append_singleton calls call ih =>
    cases call with
    | stop => exact Or.inr ⟨calls, [], Or.inl rfl⟩
    | start oldTheme duration easing => exact Or.inr ⟨calls, [], Or.inr ⟨oldTheme, duration, easing, rfl⟩⟩
    | tick delta =>
      rcases ih with never | ⟨before, deltas, same | ⟨oldTheme, duration, easing, same⟩⟩
      · refine Or.inl fun oldTheme duration easing member => ?_
        rcases List.mem_append.mp member with earlier | last
        · exact never oldTheme duration easing earlier
        · cases List.mem_singleton.mp last
      · refine Or.inr ⟨before, deltas ++ [delta], Or.inl ?_⟩
        rw [same, ticks_append, List.append_assoc]
        rfl
      · refine Or.inr ⟨before, deltas ++ [delta], Or.inr ⟨oldTheme, duration, easing, ?_⟩⟩
        rw [same, ticks_append, List.append_assoc]
        rfl

/-- A run that is not over: all of the transition is told by its last start and the ticks since. -/
theorem running_of_not_over (lasting : ¬ Over calls) : ∃ before oldTheme duration easing deltas progress,
    calls = before ++ .start oldTheme duration easing :: ticks deltas ∧ 0 < duration ∧
      run calls = ⟨.running oldTheme progress, duration, deltas.sum, easing⟩ ∧
        Progress (before ++ [.start oldTheme duration easing]) duration easing deltas progress := by
  rcases last_start_or_stop calls with never | ⟨before, deltas, rfl | ⟨oldTheme, duration, easing, rfl⟩⟩
  · exact absurd (.unstarted never) lasting
  · exact absurd (.stopped before deltas) lasting
  · rcases le_or_gt duration 0 with none | positive
    · exact absurd (.instant before oldTheme easing deltas none) lasting
    · rcases run_ticks positive before oldTheme easing deltas with ⟨⟨part, ⟨later, rfl⟩, reached⟩, -⟩ | ⟨-, progress, running, made⟩
      · exact absurd (.elapsed before oldTheme easing later reached) lasting
      · exact ⟨before, oldTheme, duration, easing, deltas, progress, rfl, positive, running, made⟩

/-- A tick that returns tells whether the transition is running behind it. Behind one whose easing
fails the transition is running as before. -/
theorem tick_tells (calls : List (Call θ Rat)) (delta : Rat) :
    (∀ still, ((run calls).tick delta).2 = .ok still → still = (run (calls ++ [.tick delta])).isActive) ∧
      (∀ failed, ((run calls).tick delta).2 = .error failed →
        (run calls).isActive = true ∧ (run (calls ++ [.tick delta])).phase = (run calls).phase) := by
  rw [run_tick]
  by_cases finished : Over calls
  · rw [tick_idle finished.idle, isActive, finished.idle]
    exact ⟨fun _ same => (Except.ok.inj same).symm, fun _ same => by cases same⟩
  · obtain ⟨before, oldTheme, duration, easing, deltas, progress, -, positive, running, -⟩ := running_of_not_over finished
    rw [running, tick_running positive]
    by_cases reached : duration ≤ deltas.sum + delta
    · rw [if_pos reached]
      exact ⟨fun _ same => (Except.ok.inj same).symm, fun _ same => by cases same⟩
    · rw [if_neg reached]
      cases easing ((deltas.sum + delta) / duration) with
      | some value => exact ⟨fun _ same => (Except.ok.inj same).symm, fun _ same => by cases same⟩
      | none => exact ⟨fun _ same => (by cases same), fun _ _ => ⟨rfl, rfl⟩⟩

def Alike (first second : Transition θ Rat) : Prop := first = second ∨ first.phase = .idle ∧ second.phase = .idle

theorem Alike.perform {first second : Transition θ Rat} (alike : Alike first second) (call : Call θ Rat) :
    Alike (first.perform call) (second.perform call) := by
  rcases alike with rfl | ⟨idle, other⟩
  · exact Or.inl rfl
  · cases call with
    | stop => exact Or.inr ⟨rfl, rfl⟩
    | tick delta =>
      rw [Transition.perform, Transition.perform, tick_idle idle, tick_idle other]
      exact Or.inr ⟨idle, other⟩
    | start oldTheme duration easing =>
      simp only [Transition.perform, start]
      split
      · exact Or.inr ⟨rfl, rfl⟩
      · exact Or.inl rfl

theorem Alike.foldl {first second : Transition θ Rat} (alike : Alike first second) (calls : List (Call θ Rat)) :
    Alike (calls.foldl Transition.perform first) (calls.foldl Transition.perform second) := by
  induction calls generalizing first second with
  | nil => exact alike
  | cons call others ih => exact ih (alike.perform call)

theorem Alike.phase {first second : Transition θ Rat} (alike : Alike first second) : first.phase = second.phase := by
  rcases alike with rfl | ⟨idle, other⟩
  · rfl
  · rw [idle, other]

/-- A start forgets what was before it. -/
theorem phase_of_start (before : List (Call θ Rat)) (oldTheme : θ) (duration : Rat) (easing : Easing Rat)
    (calls : List (Call θ Rat)) :
    (run (before ++ .start oldTheme duration easing :: calls)).phase = (run (.start oldTheme duration easing :: calls)).phase := by
  have started : Alike ((run before).start oldTheme duration easing) (initial.start oldTheme duration easing) := by
    simp only [start]
    split
    · exact Or.inr ⟨rfl, rfl⟩
    · exact Or.inl rfl
  rw [run_append]
  exact (started.foldl calls).phase

end

section
variable {begun : List (Call θ Rat)} {duration : Rat} {easing : Easing Rat} {deltas : List Rat}

def LastReturns (begun : List (Call θ Rat)) (deltas : List Rat) : Prop :=
  ∃ early delta, deltas = early ++ [delta] ∧ Returns (begun ++ ticks early) delta

theorem LastReturns.progress {progress : Rat} (settled : LastReturns begun deltas)
    (made : Progress begun duration easing deltas progress) : easing (deltas.sum / duration) = some progress := by
  obtain ⟨early, delta, rfl, returned⟩ := settled
  cases made with
  | unchanged failed => exact absurd returned (failed early delta (List.prefix_refl _))
  | @last part next _ reached _ failed value =>
    have short := reached.length_le
    simp only [List.length_append, List.length_singleton] at short
    rcases Nat.lt_or_ge part.length early.length with shorter | longer
    · exact absurd returned (failed early delta shorter (List.prefix_refl _))
    · have whole := reached.eq_of_length (by simp only [List.length_append, List.length_singleton]; omega)
      rwa [whole] at value

/-- Time that never runs backwards is at its highest behind the last tick. -/
theorem idle_iff_of_nonneg (forward : ∀ delta ∈ deltas, 0 ≤ delta) (before : List (Call θ Rat)) (oldTheme : θ)
    (duration : Rat) (easing : Easing Rat) :
    (run (before ++ .start oldTheme duration easing :: ticks deltas)).phase = .idle ↔ duration ≤ deltas.sum := by
  rcases le_or_gt duration 0 with none | positive
  · exact iff_of_true (run_instant none deltas) (none.trans (List.sum_nonneg forward))
  · rcases run_ticks positive before oldTheme easing deltas with ⟨⟨part, ⟨later, rfl⟩, reached⟩, idle⟩ | ⟨below, progress, running, -⟩
    · refine iff_of_true idle (reached.trans ?_)
      rw [List.sum_append]
      exact le_add_of_nonneg_right (List.sum_nonneg fun delta member => forward delta (List.mem_append_right _ member))
    · rw [running]
      exact iff_of_false (fun same => by cases same) (not_le.mpr (below deltas (List.prefix_refl _)))

/-- Cuts of one time whose last ticks return have come to the same progress. -/
theorem phase_eq_of_lastReturns {before : List (Call θ Rat)} {oldTheme : θ} {others : List Rat}
    (forward : ∀ delta ∈ deltas, 0 ≤ delta) (onward : ∀ delta ∈ others, 0 ≤ delta) (same : deltas.sum = others.sum)
    (settled : LastReturns (before ++ [.start oldTheme duration easing]) deltas)
    (other : LastReturns (before ++ [.start oldTheme duration easing]) others) :
    (run (before ++ .start oldTheme duration easing :: ticks deltas)).phase =
      (run (before ++ .start oldTheme duration easing :: ticks others)).phase := by
  by_cases past : duration ≤ deltas.sum
  · rw [(idle_iff_of_nonneg forward ..).mpr past, (idle_iff_of_nonneg onward ..).mpr (same ▸ past)]
  · have positive : 0 < duration := lt_of_le_of_lt (List.sum_nonneg forward) (not_le.mp past)
    rcases run_ticks positive before oldTheme easing deltas with ⟨-, idle⟩ | ⟨-, progress, running, made⟩
    · exact absurd ((idle_iff_of_nonneg forward ..).mp idle) past
    rcases run_ticks positive before oldTheme easing others with ⟨-, idle⟩ | ⟨-, value, ending, last⟩
    · exact absurd (same ▸ (idle_iff_of_nonneg onward ..).mp idle) past
    have first := settled.progress made
    have second := other.progress last
    rw [same, second] at first
    rw [running, ending, Option.some.inj first]

end

/-- After any calls a transition is over or tells of its last start and of the time since, of which
no failing tick is lost. Nothing before a start matters behind it, and no tick divides by zero.
Of time that never runs backwards only the sum counts: for whether the transition is over in any
case, and for its progress where the last tick has returned. -/
theorem run_told_by_last_start (calls : List (Call θ Rat)) :
    (Over calls → (run calls).phase = .idle) ∧
    (¬ Over calls → ∃ before oldTheme duration easing deltas progress,
      calls = before ++ .start oldTheme duration easing :: ticks deltas ∧
        (run calls).phase = .running oldTheme progress ∧
        Progress (before ++ [.start oldTheme duration easing]) duration easing deltas progress) ∧
    ((run calls).isActive = true → (run calls).duration ≠ 0) ∧
    (∀ delta,
      (∀ still, ((run calls).tick delta).2 = .ok still → still = (run (calls ++ [.tick delta])).isActive) ∧
        (∀ failed, ((run calls).tick delta).2 = .error failed →
          (run calls).isActive = true ∧ (run (calls ++ [.tick delta])).phase = (run calls).phase)) ∧
    (∀ before oldTheme duration easing, (run (before ++ .start oldTheme duration easing :: calls)).phase =
      (run (.start oldTheme duration easing :: calls)).phase) ∧
    (∀ oldTheme duration easing deltas others,
      (∀ delta ∈ deltas, 0 ≤ delta) → (∀ delta ∈ others, 0 ≤ delta) → deltas.sum = others.sum →
        let first := run (calls ++ .start oldTheme duration easing :: ticks deltas)
        let second := run (calls ++ .start oldTheme duration easing :: ticks others)
        (first.phase = .idle ↔ second.phase = .idle) ∧
          (LastReturns (calls ++ [.start oldTheme duration easing]) deltas →
            LastReturns (calls ++ [.start oldTheme duration easing]) others → first.phase = second.phase)) := by
  refine ⟨Over.idle, ?_, ?_, tick_tells calls, ?_, ?_⟩
  · intro lasting
    obtain ⟨before, oldTheme, duration, easing, deltas, progress, cut, -, running, made⟩ := running_of_not_over lasting
    exact ⟨before, oldTheme, duration, easing, deltas, progress, cut, by rw [running], made⟩
  · intro active
    have lasting : ¬ Over calls := by
      intro finished
      rw [isActive, finished.idle] at active
      cases active
    obtain ⟨_, _, duration, _, _, _, -, positive, running, -⟩ := running_of_not_over lasting
    rw [running]
    exact positive.ne'
  · exact fun before oldTheme duration easing => phase_of_start before oldTheme duration easing calls
  · intro oldTheme duration easing deltas others forward onward same first second
    refine ⟨?_, phase_eq_of_lastReturns forward onward same⟩
    rw [idle_iff_of_nonneg forward, idle_iff_of_nonneg onward, same]

/-- Behind a start that replaced another one, two of three ticks fail, the last one among them. -/
theorem run_told_by_last_start_failing :
    let half : Easing Rat := fun share => if share < 1 / 2 then some (2 * share) else none
    let calls : List (Call Nat Rat) := [.start 1 5 linear, .tick 2, .start 2 10 half, .tick 7, .tick (-4), .tick 3]
    (run calls).phase = .running 2 (3 / 5) ∧ ¬ Over calls ∧
      (∃ before oldTheme duration easing deltas progress,
        calls = before ++ .start oldTheme duration easing :: ticks deltas ∧
          (run calls).phase = .running oldTheme progress ∧
          Progress (before ++ [.start oldTheme duration easing]) duration easing deltas progress) ∧
      (run calls).duration ≠ 0 ∧ ((run calls).tick 1).2 = .error {} ∧
      (run (calls ++ [.tick 1])).phase = (run calls).phase ∧
      (run (calls ++ .start 3 10 half :: ticks [1, 0, 3])).phase = (run (calls ++ .start 3 10 half :: ticks [2, 2])).phase := by
  intro half calls
  obtain ⟨ended, told, divides, ticked, -, cuts⟩ := run_told_by_last_start calls
  have running : (run calls).phase = .running 2 (3 / 5) := by decide +kernel
  have failed : ((run calls).tick 1).2 = .error {} := by decide +kernel
  have lasting : ¬ Over calls := by
    intro finished
    have idle := ended finished
    rw [running] at idle
    cases idle
  obtain ⟨active, kept⟩ := (ticked 1).2 {} failed
  refine ⟨running, lasting, told lasting, divides active, failed, kept, ?_⟩
  exact (cuts 3 10 half [1, 0, 3] [2, 2] (by decide) (by decide) (by decide +kernel)).2
    ⟨[1, 0], 3, rfl, true, by decide +kernel⟩ ⟨[2], 2, rfl, true, by decide +kernel⟩

/-- The progress is not always told by the sum of the ticks. A tick of no length asks the easing for
a value that no tick had yet, and a tick whose easing fails leaves the progress of an earlier one. -/
theorem phase_not_of_sum :
    (¬ ∀ (easing : Easing Rat) (deltas others : List Rat), (∀ share, (easing share).isSome = true) →
      (∀ delta ∈ deltas, 0 ≤ delta) → (∀ delta ∈ others, 0 ≤ delta) → deltas.sum = others.sum →
        (run (.start () 100 easing :: ticks deltas)).phase = (run (.start () 100 easing :: ticks others)).phase) ∧
    (¬ ∀ (easing : Easing Rat) (deltas others : List Rat), deltas ≠ [] → others ≠ [] →
      (∀ delta ∈ deltas, 0 ≤ delta) → (∀ delta ∈ others, 0 ≤ delta) → deltas.sum = others.sum →
        (run (.start () 100 easing :: ticks deltas)).phase = (run (.start () 100 easing :: ticks others)).phase) := by
  constructor
  · intro law
    have same := law (fun share => some (share + 1)) [] [0] (fun _ => rfl) (by decide) (by decide) (by decide +kernel)
    have differ : (run [.start () 100 fun share => some (share + 1)]).phase ≠
        (run (.start () 100 (fun share => some (share + 1)) :: ticks [0])).phase := by decide +kernel
    exact differ same
  · intro law
    have same := law (fun share => if share < 1 / 2 then some share else none) [40, 20] [60] (by decide) (by decide)
      (by decide) (by decide) (by decide +kernel)
    have differ : (run (.start () 100 (fun share => if share < 1 / 2 then some share else none) :: ticks [40, 20])).phase ≠
        (run (.start () 100 (fun share => if share < 1 / 2 then some share else none) :: ticks [60])).phase := by
      decide +kernel
    exact differ same

end Highlight.Transition
