import Highlight.Theme.Gallery
import Mathlib.Data.List.Induction

/-! A listener that was there from the start knows the active theme: it is the one that was announced
last. The active theme can change by its name, by the colour mode, and by a theme that takes the
place of another one under the active name, and none of these is silent. -/

namespace Highlight

namespace Gallery

inductive Call (θ : Type)
  | setMode (mode : ColorMode)
  | register (theme : θ)
  | select (name : List CodePoint)

variable {θ : Type}

def perform (name : θ → List CodePoint) (gallery : Gallery θ) : Call θ → Except ThemeError (Announced θ)
  | .setMode mode => .ok (gallery.setMode mode)
  | .register theme => .ok (gallery.register name theme)
  | .select wanted => gallery.select wanted

/-- The gallery after one more call, with all the themes announced by then. A call that fails leaves
everything as it was. -/
def hear (name : θ → List CodePoint) (heard : Announced θ) (call : Call θ) : Announced θ :=
  match heard.gallery.perform name call with
  | .ok reply => ⟨reply.gallery, heard.themes ++ reply.themes⟩
  | .error _ => heard

def run (name : θ → List CodePoint) (builtin : ColorMode → θ) (calls : List (Call θ)) : Announced θ :=
  calls.foldl (hear name) ⟨initial name builtin, []⟩

def Known (name : θ → List CodePoint) (calls : List (Call θ)) (wanted : List CodePoint) : Prop :=
  (∃ mode : ColorMode, mode.themeName = wanted) ∨ ∃ theme, .register theme ∈ calls ∧ name theme = wanted

variable {name : θ → List CodePoint} {builtin : ColorMode → θ} {calls : List (Call θ)} {gallery : Gallery θ}
  {wanted : List CodePoint}

private theorem run_append_singleton (calls : List (Call θ)) (call : Call θ) :
    run name builtin (calls ++ [call]) = hear name (run name builtin calls) call := List.foldl_append

private theorem activate_themes (gallery : Gallery θ) (wanted : List CodePoint) :
    (gallery.activate wanted).gallery.themes = gallery.themes := by
  unfold activate
  split <;> rfl

private theorem select_of_known (known : (gallery.themes.lookup wanted).isSome = true) :
    gallery.select wanted = .ok (gallery.activate wanted) := if_pos known

private theorem select_of_unknown (unknown : (gallery.themes.lookup wanted).isSome = false) :
    gallery.select wanted = .error (.unknownTheme wanted) := if_neg (Bool.eq_false_iff.mp unknown)

private theorem lookup_hear (heard : Announced θ) (call : Call θ) (wanted : List CodePoint) :
    ((hear name heard call).gallery.themes.lookup wanted).isSome = true ↔
      (heard.gallery.themes.lookup wanted).isSome = true ∨ ∃ theme, call = .register theme ∧ name theme = wanted := by
  cases call with
  | setMode mode =>
    simp only [hear, perform, setMode, activate_themes, reduceCtorEq, false_and, exists_false, or_false]
  | select other =>
    simp only [hear, perform, select, reduceCtorEq, false_and, exists_false, or_false]
    split
    next reply selected =>
      split at selected
      · cases selected
        rw [activate_themes]
      · cases selected
    next => rfl
  | register theme =>
    simp only [hear, perform, register, Entries.lookup_put, Call.register.injEq, exists_eq_left']
    by_cases same : wanted = name theme
    · simp [same]
    · simp [same, Ne.symm same]

private theorem lookup_run (named : ∀ mode, name (builtin mode) = mode.themeName) (calls : List (Call θ))
    (wanted : List CodePoint) :
    ((run name builtin calls).gallery.themes.lookup wanted).isSome = true ↔ Known name calls wanted := by
  induction calls using List.reverseRecOn with
  | nil =>
    have start : ((run name builtin []).gallery.themes.lookup wanted).isSome = true ↔
        "dark" = wanted ∨ "light" = wanted := by
      simp only [run, List.foldl_nil, initial, ColorMode.all, List.foldl_cons, named, Entries.lookup_put, ColorMode.themeName]
      by_cases dark : wanted = "dark"
      · simp [dark]
      · by_cases light : wanted = "light"
        · simp [light]
        · simp [dark, light, Ne.symm dark, Ne.symm light]
    rw [start]
    refine ⟨?_, ?_⟩
    · rintro (dark | light)
      · exact Or.inl ⟨.dark, dark⟩
      · exact Or.inl ⟨.light, light⟩
    · rintro (⟨mode, same⟩ | ⟨theme, member, -⟩)
      · cases mode with
        | dark => exact Or.inl same
        | light => exact Or.inr same
      · cases member
  | append_singleton calls call ih =>
    rw [run_append_singleton, lookup_hear, ih, Known, Known]
    simp only [List.mem_append, List.mem_singleton, or_and_right, exists_or, or_assoc, eq_comm (a := call)]

/-- What a listener knows: the theme of the active name is the one announced last, or the first one
if none was announced. -/
def Follows (first : θ) (heard : Announced θ) : Prop :=
  heard.gallery.themes.lookup heard.gallery.active = some (heard.themes.getLast?.getD first)

variable {first : θ} {heard : Announced θ}

theorem Follows.activate (follows : Follows first heard) (gallery : Gallery θ) (themes : gallery.themes = heard.gallery.themes)
    (active : gallery.active = heard.gallery.active) (known : (gallery.themes.lookup wanted).isSome = true) :
    Follows first ⟨(gallery.activate wanted).gallery, heard.themes ++ (gallery.activate wanted).themes⟩ := by
  unfold Gallery.activate
  split
  next same =>
    rw [List.append_nil]
    simpa only [Follows, themes, active] using follows
  next other =>
    obtain ⟨theme, found⟩ := Option.isSome_iff_exists.mp known
    simp only [Follows, found, Option.toList_some, List.getLast?_concat, Option.getD_some]

theorem Follows.register (follows : Follows first heard) (theme : θ) :
    Follows first ⟨(heard.gallery.register name theme).gallery, heard.themes ++ (heard.gallery.register name theme).themes⟩ := by
  simp only [Follows, Gallery.register, Entries.lookup_put]
  by_cases same : name theme = heard.gallery.active
  · simp only [same, beq_self_eq_true, if_true, List.getLast?_concat, Option.getD_some]
  · have apart : (heard.gallery.active == name theme) = false := beq_false_of_ne (Ne.symm same)
    simpa only [Follows, apart, same, if_false, Bool.false_eq_true, List.append_nil] using follows

/-- No call changes the active theme behind the listener's back. The built-in names are there at any
time, so a change of the colour mode finds its theme. -/
theorem Follows.hear (follows : Follows first heard)
    (builtin : ∀ mode : ColorMode, (heard.gallery.themes.lookup mode.themeName).isSome = true) (call : Call θ) :
    Follows first (hear name heard call) := by
  cases call with
  | setMode mode => exact follows.activate { heard.gallery with mode := mode } rfl rfl (builtin mode)
  | register theme => exact follows.register theme
  | select wanted =>
    cases known : (heard.gallery.themes.lookup wanted).isSome with
    | true =>
      simp only [Gallery.hear, perform, select_of_known known]
      exact follows.activate heard.gallery rfl rfl known
    | false =>
      simp only [Gallery.hear, perform, select_of_unknown known]
      exact follows

private theorem run_follows (named : ∀ mode, name (builtin mode) = mode.themeName) (calls : List (Call θ)) :
    Follows (builtin .dark) (run name builtin calls) := by
  induction calls using List.reverseRecOn with
  | nil =>
    simp only [Follows, run, List.foldl_nil, initial, ColorMode.all, List.foldl_cons, named, Entries.lookup_put,
      beq_self_eq_true, if_true, List.getLast?_nil, Option.getD_none]
  | append_singleton calls call ih =>
    rw [run_append_singleton]
    exact ih.hear (fun mode => (lookup_run named calls _).mpr (Or.inl ⟨mode, rfl⟩)) call

theorem Follows.get (follows : Follows first heard) : heard.gallery.get none = .ok (heard.themes.getLast?.getD first) := by
  rw [Follows] at follows
  simp only [Gallery.get, Option.getD_none, follows]

/-- After any calls the theme announced last, or the dark one if none was announced, is the very one
that is active. A name that no theme was registered under cannot be selected: nothing is
announced then, and the gallery stays as it was. Every other name can. -/
theorem listeners_hear_active {behind : θ → Theme} {builtin : ColorMode → θ}
    (same : ∀ mode, behind (builtin mode) = mode.theme) (calls : List (Call θ)) :
    let name := fun theme => (behind theme).name
    let heard := run name builtin calls
    heard.gallery.get none = .ok (heard.themes.getLast?.getD (builtin .dark)) ∧
      ∀ wanted,
        (¬ Known name calls wanted → heard.gallery.select wanted = .error (.unknownTheme wanted) ∧
          run name builtin (calls ++ [.select wanted]) = heard) ∧
        (Known name calls wanted → ∃ reply, heard.gallery.select wanted = .ok reply) := by
  intro name heard
  have named : ∀ mode, name (builtin mode) = mode.themeName := fun mode => congrArg Theme.name (same mode)
  refine ⟨(run_follows named calls).get, fun wanted => ⟨fun unknown => ?_, fun known => ?_⟩⟩
  · have missing : (heard.gallery.themes.lookup wanted).isSome = false :=
      Bool.eq_false_iff.mpr (mt (lookup_run named calls wanted).mp unknown)
    refine ⟨select_of_unknown missing, ?_⟩
    rw [run_append_singleton, hear, perform, select_of_unknown missing]
  · exact ⟨_, select_of_known ((lookup_run named calls wanted).mpr known)⟩

/-- Themes under the names of the built-in ones, one of them while its name is active, and a name
that is not there. -/
theorem listeners_hear_active_replaced :
    let builtin : ColorMode → Theme × Nat := fun mode => (mode.theme, 0)
    let name : Theme × Nat → List CodePoint := fun theme => theme.1.name
    let calls : List (Call (Theme × Nat)) :=
      [.register (ColorMode.light.theme, 1), .register (⟨"own", none, none⟩, 2), .setMode .light, .select "own",
       .select "none", .setMode .light, .register (ColorMode.dark.theme, 3), .register (ColorMode.light.theme, 4)]
    let heard := run name builtin calls
    (∀ mode, (builtin mode).1 = mode.theme) ∧ heard.themes.map Prod.snd = [1, 2, 1, 4] ∧
      heard.gallery.get none = .ok (ColorMode.light.theme, 4) ∧
      ¬ Known name calls "none" ∧ heard.gallery.select "none" = .error (.unknownTheme "none") ∧
      run name builtin (calls ++ [.select "none"]) = heard ∧ Known name calls "own" := by
  intro builtin name calls heard
  obtain ⟨active, selected⟩ := listeners_hear_active (fun _ => rfl : ∀ mode, (builtin mode).1 = mode.theme) calls
  have themes : heard.themes.map Prod.snd = [1, 2, 1, 4] := by decide +kernel
  have last : heard.themes.getLast?.getD (builtin .dark) = (ColorMode.light.theme, 4) := by decide +kernel
  have unknown : ¬ Known name calls "none" := by
    rintro (⟨mode, same⟩ | ⟨theme, member, same⟩)
    · cases mode <;> exact absurd same (by decide)
    · simp only [calls, List.mem_cons, Call.register.injEq, reduceCtorEq, false_or, List.not_mem_nil, or_false] at member
      rcases member with rfl | rfl | rfl | rfl <;> exact absurd same (by decide)
  have known : Known name calls "own" := Or.inr ⟨(⟨"own", none, none⟩, 2), by simp [calls], rfl⟩
  obtain ⟨failed, kept⟩ := (selected "none").1 unknown
  exact ⟨fun _ => rfl, themes, active.trans (congrArg _ last), unknown, failed, kept, known⟩

end Gallery

end Highlight
