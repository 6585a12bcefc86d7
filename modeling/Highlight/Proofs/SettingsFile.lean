import Highlight.Proofs.Doubles
import Highlight.Proofs.FileValues
import Highlight.Settings

/-! Settings read from a file make sense, whatever the file holds: what a field gives is either its
default or a value of its own kind. Only a number that is too large for its field stops the reading
of an object. Settings that make sense are read back from what they are written as. -/

namespace Highlight.Settings

/-- Settings that make sense, with a fallback colour that the reader of colours knows and that is in
normal form. -/
structure Sound (reader : ColorReader) (settings : Settings) : Prop where
  language : settings.language ≠ .unknown
  duration : 0 ≤ settings.durationMs
  easing : Curve.isKnown settings.easing
  fontSize : ∀ size ∈ settings.fontSize, ∃ x, size = .real x ∧ 0.0 < x
  fallback : ∀ color ∈ settings.fallback, Color.isNormal color ∧ reader.normalize? color = some color

/-- Among the fields is an infinite duration, or a font size that is a positive integer without a
finite double near it. -/
inductive TooLarge (fields : List (List CodePoint × Json)) : Prop
  | duration {x : Float} (given : Json.fieldIn? fields "transitionDurationMs" = some (.double x)) (least : 0.0 ≤ x)
      (infinite : x.isInf)
  | fontSize {n : Int} (given : Json.fieldIn? fields "fontSize" = some (.integer n)) (positive : 0 < n)
      (huge : doubleOf? n = none)

variable {reader : ColorReader} {found : Json} {fields : List (List CodePoint × Json)} {settings : Settings}

private theorem languageOf_ne_unknown (found : Json) : (languageOf found).1 ≠ .unknown := by
  unfold languageOf
  dsimp only
  split
  next => decide
  next known => exact known

private theorem easingOf_isKnown (found : Json) : Curve.isKnown (easingOf found).1 := by
  have default : Curve.isKnown ({} : Settings).easing := by decide
  unfold easingOf
  split
  next =>
    split
    next named => exact Curve.isKnown_of_named named
    next => exact default
  next => exact default

private theorem fallbackOf_normal {color : String} (read : color ∈ (fallbackOf found reader).1) :
    Color.isNormal color ∧ reader.normalize? color = some color := by
  unfold fallbackOf at read
  split at read
  next => cases read
  next =>
    split at read
    next normal given =>
      cases read
      unfold Theme.colorOf? at given
      split at given
      next => exact ⟨reader.normal given, reader.settled (reader.normal given)⟩
      next => cases given
    next => cases read

private theorem wholePart?_eq_none_iff {x : Float} (least : 0.0 ≤ x) : wholePart? x = none ↔ x.isInf := by
  rw [wholePart?, not_isNaN_of_zero_le least, Bool.false_or]
  split
  next infinite => exact iff_of_true rfl infinite
  next finite => exact iff_of_false nofun finite

private theorem durationOf_infinite {x : Float} (least : 0.0 ≤ x) (infinite : x.isInf) :
    durationOf (.double x) = .error .tooLarge := by
  simp only [durationOf, if_pos least, (wholePart?_eq_none_iff least).mpr infinite]

private theorem durationOf_finite (finite : ∀ x, found = .double x → 0.0 ≤ x → ¬ x.isInf) :
    ∃ duration, durationOf found = .ok duration ∧ 0 ≤ duration := by
  have default : 0 ≤ ({} : Settings).durationMs := by decide
  unfold durationOf
  split
  next n =>
    refine ⟨_, rfl, ?_⟩
    split
    next least => exact least
    next => exact default
  next flag => exact ⟨_, rfl, by cases flag <;> decide⟩
  next x =>
    split
    next least =>
      split
      next n _ => exact ⟨n, rfl, Int.natCast_nonneg n⟩
      next infinite => exact absurd ((wholePart?_eq_none_iff least).mp infinite) (finite x rfl least)
    next => exact ⟨_, rfl, default⟩
  next => exact ⟨_, rfl, default⟩

private theorem fontSizeOf_huge {n : Int} (positive : 0 < n) (huge : doubleOf? n = none) :
    fontSizeOf (.integer n) = .error .tooLarge := by
  simp only [fontSizeOf, if_pos positive, huge]

private theorem fontSizeOf_near (near : ∀ n, found = .integer n → 0 < n → doubleOf? n ≠ none) :
    ∃ fontSize, fontSizeOf found = .ok fontSize ∧ ∀ size ∈ fontSize, ∃ x, size = .real x ∧ 0.0 < x := by
  unfold fontSizeOf
  split
  next n =>
    split
    next positive =>
      split
      next x converted =>
        refine ⟨_, rfl, fun size given => ⟨x, (Option.some.inj given).symm, zero_lt_doubleOf positive converted⟩⟩
      next huge => exact absurd huge (near n rfl positive)
    next => exact ⟨none, rfl, fun size given => nomatch given⟩
  next flag =>
    refine ⟨_, rfl, fun size given => ?_⟩
    cases flag with
    | false => cases given
    | true => exact ⟨1.0, (Option.some.inj given).symm, by decide⟩
  next x =>
    refine ⟨_, rfl, fun size given => ?_⟩
    split at given
    next positive => exact ⟨x, (Option.some.inj given).symm, positive⟩
    next => cases given
  next => exact ⟨none, rfl, fun size given => nomatch given⟩

private theorem durationOf_error {error : SettingsError} (failed : durationOf found = .error error) : error = .tooLarge := by
  by_cases large : ∃ x, found = .double x ∧ 0.0 ≤ x ∧ x.isInf
  · obtain ⟨x, rfl, least, infinite⟩ := large
    exact Except.error.inj (failed.symm.trans (durationOf_infinite least infinite))
  · obtain ⟨duration, read, -⟩ := durationOf_finite fun x given least infinite => large ⟨x, given, least, infinite⟩
    cases failed.symm.trans read

private theorem fieldIn?_of_field {name : String} {value : Json} (given : field fields name .null = value)
    (filled : value ≠ .null) :
    Json.fieldIn? fields name = some value := by
  unfold field at given
  cases lookup : Json.fieldIn? fields name with
  | none =>
    rw [lookup] at given
    exact absurd given.symm filled
  | some other =>
    rw [lookup] at given
    exact congrArg some given

private theorem field_of_fieldIn? {name : String} {value default : Json} (given : Json.fieldIn? fields name = some value) :
    field fields name default = value := by
  rw [field, given, Option.getD_some]

private theorem ofFields_of_read {duration : Int} {fontSize : Option Number}
    (durationRead : durationOf (field fields "transitionDurationMs" .null) = .ok duration)
    (fontSizeRead : fontSizeOf (field fields "fontSize" .null) = .ok fontSize) :
    ofFields fields reader =
      let mode := modeOf (field fields "theme" (.string "DARK"))
      let language := languageOf (field fields "language" (.string "javascript"))
      let easing := easingOf (field fields "easing" (.string ({} : Settings).easing))
      let fallback := fallbackOf (field fields "fallbackColor" .null) reader
      (.ok ⟨mode.1, language.1, duration, easing.1, fontSize, fallback.1⟩,
        mode.2 ++ language.2 ++ easing.2 ++ fallback.2) := by
  simp only [ofFields, durationRead, fontSizeRead]

private theorem ofFields_of_tooLarge (large : TooLarge fields) : (ofFields fields reader).1 = .error .tooLarge := by
  cases large with
  | duration given least infinite =>
    simp only [ofFields, field_of_fieldIn? given, durationOf_infinite least infinite]
  | fontSize given positive huge =>
    simp only [ofFields, field_of_fieldIn? given, fontSizeOf_huge positive huge]
    split
    next error failed => rw [durationOf_error failed]
    next => rfl

private theorem ofFields_of_not_tooLarge (reader : ColorReader) (fits : ¬ TooLarge fields) :
    ∃ settings, (ofFields fields reader).1 = .ok settings ∧ settings.Sound reader := by
  obtain ⟨duration, durationRead, least⟩ := durationOf_finite fun x given least infinite =>
    fits (.duration (fieldIn?_of_field given nofun) least infinite)
  obtain ⟨fontSize, fontSizeRead, positive⟩ := fontSizeOf_near fun n given positive huge =>
    fits (.fontSize (fieldIn?_of_field given nofun) positive huge)
  rw [ofFields_of_read durationRead fontSizeRead]
  refine ⟨_, rfl, ?_⟩
  constructor <;> dsimp only
  case language => exact languageOf_ne_unknown _
  case duration => exact least
  case easing => exact easingOf_isKnown _
  case fontSize => exact positive
  case fallback => exact fun _ => fallbackOf_normal

variable {text : List Char}

private theorem ofText_fields (parsed : Json.ofText? text = some (.object fields)) :
    ofText text reader = ofFields fields reader := by
  simp only [ofText, parsed]

private theorem ofText_value {value : Json} (parsed : Json.ofText? text = some value)
    (other : ∀ fields, value ≠ .object fields) :
    ofText text reader = (.error .notObject, []) := by
  unfold ofText
  rw [parsed]
  split
  next absent => cases absent
  next fields found => exact absurd (Option.some.inj found) (other fields)
  next => rfl

inductive Outcome (reader : ColorReader) (text : List Char) : Except SettingsError Settings → Prop
  | notJson (unread : Json.ofText? text = none) : Outcome reader text (.error .notJson)
  | notObject {value : Json} (parsed : Json.ofText? text = some value) (other : ∀ fields, value ≠ .object fields) :
      Outcome reader text (.error .notObject)
  | tooLarge {fields : List (List CodePoint × Json)} (parsed : Json.ofText? text = some (.object fields))
      (large : TooLarge fields) : Outcome reader text (.error .tooLarge)
  | settings {fields : List (List CodePoint × Json)} {settings : Settings} (parsed : Json.ofText? text = some (.object fields))
      (fits : ¬ TooLarge fields) (sound : settings.Sound reader) : Outcome reader text (.ok settings)

private theorem ofText_outcome (reader : ColorReader) (text : List Char) : Outcome reader text (ofText text reader).1 := by
  cases parsed : Json.ofText? text with
  | none =>
    have failed : ofText text reader = (.error .notJson, []) := by simp only [ofText, parsed]
    rw [failed]
    exact .notJson parsed
  | some value =>
    by_cases object : ∃ fields, value = .object fields
    · obtain ⟨fields, rfl⟩ := object
      rw [ofText_fields parsed]
      by_cases large : TooLarge fields
      · rw [ofFields_of_tooLarge large]
        exact .tooLarge parsed large
      · obtain ⟨settings, read, sound⟩ := ofFields_of_not_tooLarge reader large
        rw [read]
        exact .settings parsed large sound
    · have other (fields : List (List CodePoint × Json)) : value ≠ .object fields := fun same => object ⟨fields, same⟩
      rw [ofText_value parsed other]
      exact .notObject parsed other

/-- A text that is no JSON, one that holds no object and one with a number that is too large are told
apart, and every other text gives settings that make sense. -/
theorem file_is_loaded_or_rejected (reader : ColorReader) (text : List Char) :
    ((ofText text reader).1 = .error .notJson ↔ Json.ofText? text = none) ∧
    ((ofText text reader).1 = .error .notObject ↔
      ∃ value, Json.ofText? text = some value ∧ ∀ fields, value ≠ .object fields) ∧
    ((ofText text reader).1 = .error .tooLarge ↔
      ∃ fields, Json.ofText? text = some (.object fields) ∧ TooLarge fields) ∧
    ((∃ settings, (ofText text reader).1 = .ok settings ∧ settings.Sound reader) ↔
      ∃ fields, Json.ofText? text = some (.object fields) ∧ ¬ TooLarge fields) := by
  have outcome := ofText_outcome reader text
  generalize (ofText text reader).1 = result at outcome
  cases outcome with
  | notJson unread => simp [unread]
  | notObject parsed other => simp [parsed, other]
  | tooLarge parsed large => simp [parsed, large]
  | settings parsed fits sound => simp [parsed, fits, sound]

theorem not_every_json_loads :
    (¬ ∀ text, Json.ofText? text ≠ none → ∃ settings, (ofText text).1 = .ok settings) ∧
      ¬ ∀ fields, ∃ settings, (ofFields fields).1 = .ok settings := by
  constructor
  · intro loads
    obtain ⟨settings, read⟩ := loads ['[', ']'] (by decide)
    cases read
  · intro loads
    obtain ⟨settings, read⟩ := loads [("transitionDurationMs", .double (1.0 / 0.0))]
    have large : TooLarge [("transitionDurationMs", .double (1.0 / 0.0))] := .duration rfl (by decide) (by decide)
    cases (ofFields_of_tooLarge large).symm.trans read

private theorem modeOf_tag (mode : ColorMode) : modeOf (.string mode.tag) = (mode, []) := by
  cases mode <;> rfl

private theorem languageOf_name {language : Language} (known : language ≠ .unknown) :
    languageOf (.string language.name) = (language, []) := by
  cases language with
  | unknown => exact absurd rfl known
  | javascript | json | text | typescript => rfl

private theorem durationOf_integer {duration : Int} (least : 0 ≤ duration) : durationOf (.integer duration) = .ok duration :=
  congrArg Except.ok (if_pos least)

private theorem easingOf_string {name : String} (known : Curve.isKnown name) : easingOf (.string name) = (name, []) := by
  simp only [easingOf, Curve.named?_of_isKnown known]

private theorem fontSizeOf_toJson {fontSize : Option Number} (positive : ∀ size ∈ fontSize, ∃ x, size = .real x ∧ 0.0 < x) :
    fontSizeOf ((fontSize.map Number.toJson).getD .null) = .ok fontSize := by
  cases fontSize with
  | none => rfl
  | some size =>
    obtain ⟨x, rfl, above⟩ := positive size rfl
    exact congrArg Except.ok (if_pos above)

private theorem fallbackOf_colorJson {fallback : Option String}
    (settled : ∀ color ∈ fallback, Color.isNormal color ∧ reader.normalize? color = some color) :
    fallbackOf (Theme.colorJson fallback) reader = (fallback, []) := by
  cases fallback with
  | none => rfl
  | some color =>
    have known : Theme.colorOf? (.string color) reader = some color := (settled color rfl).2
    simp only [fallbackOf, Theme.colorJson, known]

private theorem sound_of_loaded (loaded : (ofText text reader).1 = .ok settings) : settings.Sound reader := by
  have outcome := ofText_outcome reader text
  rw [loaded] at outcome
  cases outcome with
  | settings _ _ sound => exact sound

/-- What is written for settings is read back, if that holds of the font size by itself. -/
theorem toJson_kept (alone : ∀ x, settings.fontSize = some (.real x) →
    Json.ofText? (Json.double x).toText.toList = some (.double x)) : settings.toJson.Kept := by
  have fontSize : ((settings.fontSize.map Number.toJson).getD .null).Kept := by
    cases given : settings.fontSize with
    | none => exact .null
    | some number =>
      cases number with
      | whole n => exact .integer n
      | real x => exact .double (alone x given)
  have fallback : (Theme.colorJson settings.fallback).Kept := by
    cases settings.fallback with
    | none => exact .null
    | some color => exact .string (CodePoint.fuse_ofString color)
  have string (text : String) : (Json.string text).Kept := .string (CodePoint.fuse_ofString text)
  have names : (["theme", "language", "transitionDurationMs", "easing", "fontSize", "fallbackColor"] :
      List (List CodePoint)).Nodup := by decide +kernel
  refine .object names ?_ ?_
  · simp only [List.forall_mem_cons, CodePoint.fuse_ofString, true_and]
    exact fun _ inside => nomatch inside
  · simp only [List.forall_mem_cons]
    exact ⟨string _, string _, .integer _, string _, fontSize, fallback, fun _ inside => nomatch inside⟩

theorem Sound.ofFields_toJson (sound : settings.Sound reader) (parsed : Json.ofText? text = some settings.toJson) :
    ofText text reader = (.ok settings, []) := by
  rw [ofText_fields parsed]
  simp [ofFields, field, Json.fieldIn?, List.lookup_cons, modeOf_tag, languageOf_name sound.language,
    durationOf_integer sound.duration, easingOf_string sound.easing, fontSizeOf_toJson sound.fontSize,
    fallbackOf_colorJson sound.fallback]

/-- Settings that were loaded and saved are loaded again without a word, as long as the one double that
can be among them is read back from its own text. -/
theorem saved_settings_load_back (reader : ColorReader) (text : List Char) (settings : Settings)
    (loaded : (ofText text reader).1 = .ok settings)
    (alone : ∀ x, settings.fontSize = some (.real x) → Json.ofText? (Json.double x).toText.toList = some (.double x)) :
    ofText settings.toText.toList reader = (.ok settings, []) :=
  (sound_of_loaded loaded).ofFields_toJson (toJson_kept alone).ofText?

theorem saved_settings_load_back_light :
    (ofText ['\x7b', '"', 't', 'h', 'e', 'm', 'e', '"', ':', '"', 'L', 'I', 'G', 'H', 'T', '"', ',',
      '"', 'f', 'o', 'n', 't', 'S', 'i', 'z', 'e', '"', ':', '1', '2', '.', '5', '\x7d'] .hex).1 =
        .ok { mode := .light, fontSize := some (.real 12.5) } ∧
    Json.ofText? (Json.double 12.5).toText.toList = some (.double 12.5) ∧
    ofText (Settings.toText { mode := .light, fontSize := some (.real 12.5) }).toList .hex =
      (.ok { mode := .light, fontSize := some (.real 12.5) }, []) := by
  have written : (Json.double 12.5).toText = "12.5" := by
    rw [Json.toText, Json.render]
    decide +kernel
  have digits : "12.5".toList = ['1', '2', '.', '5'] := by rfl
  have alone : Json.ofText? (Json.double 12.5).toText.toList = some (.double 12.5) := by
    rw [written, digits]
    rfl
  refine ⟨?loaded, alone, saved_settings_load_back .hex _ _ ?loaded fun x same => ?_⟩
  · rfl
  · cases same
    exact alone

end Highlight.Settings
