import Highlight.Proofs.FileValues
import Highlight.Theme.File

/-! What theme files have to say. A file makes a theme exactly when it has a name, its rules are an
object and whatever stands for a colour is one; of all that is wrong with it the first thing is
reported. A theme that was read is written and read back as it is. -/

namespace Highlight.Theme

def rulesIn (fields : List (List CodePoint × Json)) : List (List CodePoint × Json) :=
  match Json.fieldIn? fields "rules" with
  | some (.object entries) => entries
  | _ => []

def fallbackIn (fields : List (List CodePoint × Json)) : Json := (Json.fieldIn? fields "fallbackColor").getD (.string "#ff0000")

def Named (fields : List (List CodePoint × Json)) (name : List CodePoint) : Prop :=
  Json.fieldIn? fields "name" = some (.string name) ∧ name ≠ []

variable (room : Nat) (reader : ColorReader) (fields : List (List CodePoint × Json))

/-- Any value can stand for a colour, as long as it can be shown: what counts is the text that it is
displayed as. -/
def IsColor (value : Json) : Prop := value.unshown? room = none ∧ (reader.normalize? value.display).isSome

def FallbackIsColor : Prop := ∀ value, Json.fieldIn? fields "fallbackColor" = some value → IsColor room reader value

def RulesAreObject : Prop := ∀ value, Json.fieldIn? fields "rules" = some value → ∃ entries, value = .object entries

structure Acceptable : Prop where
  named : ∃ name, Named fields name
  fallback : FallbackIsColor room reader fields
  object : RulesAreObject fields
  colors : ∀ entry ∈ rulesIn fields, IsColor room reader entry.2

/-- What is said of a value that is no colour. If it cannot be shown, nothing else is said. -/
def said (value : Json) (fault : ThemeFault) : Except Json.Unshown ThemeFault :=
  match value.unshown? room with
  | some why => .error why
  | none => .ok fault

/-- The first thing that is wrong with a theme file, as it is reported. -/
inductive FirstFault : Except Json.Unshown ThemeFault → Prop
  | unnamed (noName : ¬ ∃ name, Named fields name) : FirstFault (.ok { description := "Theme has no name" })
  | fallback {name : List CodePoint} {value : Json} (named : Named fields name)
      (given : Json.fieldIn? fields "fallbackColor" = some value) (noColor : ¬ IsColor room reader value) :
      FirstFault (said room value { description := "Invalid fallback color " ++ value.shown, theme := some name })
  | rules {name : List CodePoint} (named : Named fields name) (fallback : FallbackIsColor room reader fields)
      (noObject : ¬ RulesAreObject fields) :
      FirstFault (.ok { description := "Theme rules must be an object", theme := some name })
  | color {name label : List CodePoint} {value : Json} {before after : List (List CodePoint × Json)} (named : Named fields name)
      (fallback : FallbackIsColor room reader fields) (object : RulesAreObject fields)
      (split : rulesIn fields = before ++ (label, value) :: after) (others : ∀ entry ∈ before, IsColor room reader entry.2)
      (noColor : ¬ IsColor room reader value) :
      FirstFault (said room value { description := "Invalid color " ++ value.shown, theme := some name, rule := some label })

def ReadError.said? : ReadError → Option (Except Json.Unshown ThemeFault)
  | invalid error => some (.ok error.fault)
  | unshown why => some (.error why)
  | notJson | noFields => none

/-- The labels of a file in their order, with the normal forms of their colours. -/
def normalized (entries : List (List CodePoint × Json)) : List (List CodePoint × Option String) :=
  entries.map fun entry => (entry.1, reader.normalize? entry.2.display)

structure Describes (theme : Theme) : Prop where
  named : Named fields theme.name
  fallback : theme.fallback = reader.normalize? (fallbackIn fields).display
  rules : theme.rules = some ⟨normalized reader (rulesIn fields)⟩

def Colored (rules : Rules) : Prop := ∀ entry ∈ rules.entries, ∃ color, entry.2 = some color ∧ Color.isNormal color

/-- What a theme is like that was read: named, all colours normal, and no label twice. -/
structure Settled (theme : Theme) : Prop where
  named : theme.name ≠ []
  fallback : ∃ color, theme.fallback = some color ∧ Color.isNormal color
  rules : ∃ rules, theme.rules = some rules ∧ (rules.entries.map Prod.fst).Nodup ∧ Colored rules

section Reading

variable {room : Nat} {reader : ColorReader} {fields entries before after : List (List CodePoint × Json)}
  {name label : List CodePoint} {value : Json}

private theorem nameOf?_eq_some_iff : nameOf? fields = some name ↔ Named fields name := by
  unfold nameOf? Named
  split
  next text found =>
    rw [found]
    by_cases empty : text = []
    · simp only [empty, if_true, Option.some.injEq, Json.string.injEq]
      exact ⟨nofun, fun ⟨same, other⟩ => absurd same.symm other⟩
    · simp only [empty, if_false, Option.some.injEq, Json.string.injEq]
      exact ⟨fun same => ⟨same, same ▸ empty⟩, And.left⟩
  next other => exact ⟨nofun, fun ⟨found, _⟩ => absurd found (other name)⟩

private theorem nameOf?_eq_none (noName : ¬ ∃ name, Named fields name) : nameOf? fields = none := by
  cases found : nameOf? fields with
  | none => rfl
  | some name => exact absurd ⟨name, nameOf?_eq_some_iff.mp found⟩ noName

theorem IsColor.normal (isColor : IsColor room reader value) :
    ∃ color, reader.normalize? value.display = some color ∧ Color.isNormal color := by
  obtain ⟨color, read⟩ := Option.isSome_iff_exists.mp isColor.2
  exact ⟨color, read, reader.normal read⟩

private theorem isColor_of_isNormal {color : String} (normal : Color.isNormal color) : IsColor room reader
    (.string color) := by
  refine ⟨?_, Option.isSome_iff_exists.mpr ⟨color, reader.settled normal⟩⟩
  cases room <;> rfl

private theorem displayedColor_of_isColor {color : String} {error : ThemeError} (isColor : IsColor room reader value)
    (read : reader.normalize? value.display = some color) : displayedColor room reader value error = .ok color := by
  simp only [displayedColor, isColor.1, read]

/-- A value that is no colour is refused with what is to be said of it. -/
theorem displayedColor_of_not_isColor (noColor : ¬ IsColor room reader value) (error : ThemeError) :
    ∃ refused, displayedColor room reader value error = .error refused ∧ refused.said? = some (said room value error.fault) := by
  unfold displayedColor said
  cases hidden : value.unshown? room with
  | some why => exact ⟨_, rfl, rfl⟩
  | none =>
    have unread : reader.normalize? value.display = none := Option.not_isSome_iff_eq_none.mp fun read => noColor ⟨hidden, read⟩
    simp only [unread]
    exact ⟨_, rfl, rfl⟩

/-- Valid rules are taken over one after the other. -/
theorem rulesOf_colors (colors : ∀ entry ∈ entries, IsColor room reader entry.2) (rules : Rules) :
    rulesOf room reader name rules entries =
      .ok ⟨(normalized reader entries).foldl (fun known entry => Entries.put entry.1 entry.2 known) rules.entries⟩ := by
  induction entries generalizing rules with
  | nil => rfl
  | cons entry others ih =>
    obtain ⟨here, later⟩ := List.forall_mem_cons.mp colors
    obtain ⟨color, read, -⟩ := here.normal
    rw [rulesOf, displayedColor_of_isColor here read]
    refine (ih later _).trans ?_
    rw [normalized, normalized, List.map_cons, List.foldl_cons, read]
    rfl

/-- The rules before the first invalid one do not matter. -/
theorem rulesOf_noColor (colors : ∀ entry ∈ before, IsColor room reader entry.2) {refused : ReadError}
    (noColor : displayedColor room reader value (.invalidColor name label value) = .error refused) (rules : Rules) :
    rulesOf room reader name rules (before ++ (label, value) :: after) = .error refused := by
  induction before generalizing rules with
  | nil =>
    rw [List.nil_append, rulesOf, noColor]
    rfl
  | cons entry others ih =>
    obtain ⟨here, later⟩ := List.forall_mem_cons.mp colors
    obtain ⟨color, read, -⟩ := here.normal
    rw [List.cons_append, rulesOf, displayedColor_of_isColor here read]
    exact ih later _

private theorem isColor_fallbackIn (fallback : FallbackIsColor room reader fields) : IsColor room reader
    (fallbackIn fields) := by
  unfold fallbackIn
  cases given : Json.fieldIn? fields "fallbackColor" with
  | none =>
    have normal : Color.isNormal "#ff0000" = true := by decide
    exact isColor_of_isNormal normal
  | some value => exact fallback value given

private theorem rulesIn_of_object (object : RulesAreObject fields) :
    (Json.fieldIn? fields "rules").getD (.object []) = .object (rulesIn fields) := by
  unfold rulesIn
  cases given : Json.fieldIn? fields "rules" with
  | none => rfl
  | some value =>
    obtain ⟨entries, rfl⟩ := object value given
    rfl

private theorem ofFields_fallback {refused : ReadError} (named : Named fields name)
    (noColor : displayedColor room reader (fallbackIn fields) (.invalidFallback name (fallbackIn fields)) = .error refused) :
    ofFields room fields reader = .error refused := by
  rw [fallbackIn, ← defaultFallback] at noColor
  rw [ofFields, nameOf?_eq_some_iff.mpr named]
  dsimp only
  rw [noColor]
  rfl

private theorem ofFields_unshown {why : Json.Unshown} (named : Named fields name)
    (given : Json.fieldIn? fields "fallbackColor" = some value) (hidden : value.unshown? room = some why) :
    ofFields room fields reader = .error (.unshown why) := by
  have same : fallbackIn fields = value := by rw [fallbackIn, given, Option.getD_some]
  apply ofFields_fallback named
  rw [same, displayedColor, hidden]

/-- Once the name and the fallback colour are known, the rules decide. -/
theorem ofFields_rules {color : String} (named : Named fields name) (fallback : IsColor room reader (fallbackIn fields))
    (read : reader.normalize? (fallbackIn fields).display = some color) :
    ofFields room fields reader = match (Json.fieldIn? fields "rules").getD (.object []) with
      | .object entries => (rulesOf room reader name {} entries).map fun rules => ⟨name, some rules, some color⟩
      | _ => .error (.invalid (.rulesNotObject name)) := by
  have taken : displayedColor room reader (fallbackIn fields) (.invalidFallback name (fallbackIn fields)) = .ok color :=
    displayedColor_of_isColor fallback read
  rw [fallbackIn, ← defaultFallback] at taken
  rw [ofFields, nameOf?_eq_some_iff.mpr named]
  dsimp only
  rw [taken]
  cases (Json.fieldIn? fields "rules").getD (.object []) with
  | object entries =>
    change (rulesOf room reader name {} entries).bind _ = (rulesOf room reader name {} entries).map _
    cases rulesOf room reader name {} entries <;> rfl
  | _ => rfl

private theorem ofFields_acceptable (acceptable : Acceptable room reader fields)
    (distinct : ((rulesIn fields).map Prod.fst).Nodup) :
    ∃ theme, ofFields room fields reader = .ok theme ∧ Describes reader fields theme := by
  obtain ⟨⟨name, named⟩, fallback, object, colors⟩ := acceptable
  have given := isColor_fallbackIn fallback
  obtain ⟨color, read, -⟩ := given.normal
  have labels : (([] ++ normalized reader (rulesIn fields)).map Prod.fst).Nodup := by
    rwa [List.nil_append, normalized, List.map_map]
  rw [ofFields_rules named given read, rulesIn_of_object object]
  dsimp only
  rw [rulesOf_colors colors, Entries.foldl_put labels]
  exact ⟨_, rfl, named, read.symm, rfl⟩

private theorem exists_first_noColor (wrong : ¬ ∀ entry ∈ entries, IsColor room reader entry.2) :
    ∃ before label value after, entries = before ++ (label, value) :: after ∧
      (∀ entry ∈ before, IsColor room reader entry.2) ∧ ¬ IsColor room reader value := by
  classical
  cases found : entries.find? fun entry => ¬ IsColor room reader entry.2 with
  | none =>
    refine absurd (fun entry member => ?_) wrong
    simpa using List.find?_eq_none.mp found entry member
  | some entry =>
    obtain ⟨noColor, before, after, split, others⟩ := List.find?_eq_some_iff_append.mp found
    refine ⟨before, entry.1, entry.2, after, split, fun other member => ?_, ?_⟩
    · simpa using others other member
    · simpa using noColor

/-- What is not acceptable has a first fault. -/
theorem exists_firstFault (refused : ¬ Acceptable room reader fields) : ∃ fault, FirstFault room reader fields fault := by
  by_cases known : ∃ name, Named fields name
  case neg => exact ⟨_, .unnamed known⟩
  obtain ⟨name, named⟩ := known
  by_cases fallback : FallbackIsColor room reader fields
  case neg =>
    obtain ⟨value, wrong⟩ := Classical.not_forall.mp fallback
    obtain ⟨given, noColor⟩ := Classical.not_imp.mp wrong
    exact ⟨_, .fallback named given noColor⟩
  by_cases object : RulesAreObject fields
  case neg => exact ⟨_, .rules named fallback object⟩
  have wrong : ¬ ∀ entry ∈ rulesIn fields, IsColor room reader entry.2 :=
    fun colors => refused ⟨⟨name, named⟩, fallback, object, colors⟩
  obtain ⟨before, label, value, after, split, others, noColor⟩ := exists_first_noColor wrong
  exact ⟨_, .color named fallback object split others noColor⟩

/-- The first fault is the one that is reported. -/
theorem FirstFault.reported {fault : Except Json.Unshown ThemeFault} (first : FirstFault room reader fields fault) :
    ∃ error, ofFields room fields reader = .error error ∧ error.said? = some fault := by
  cases first with
  | unnamed noName =>
    refine ⟨.invalid .unnamed, ?_, rfl⟩
    rw [ofFields, nameOf?_eq_none noName]
  | @fallback name value named given noColor =>
    obtain ⟨error, unread, told⟩ := displayedColor_of_not_isColor noColor (.invalidFallback name value)
    refine ⟨error, ofFields_fallback named ?_, told⟩
    rw [fallbackIn, given, Option.getD_some, unread]
  | @rules name named fallback noObject =>
    refine ⟨.invalid (.rulesNotObject name), ?_, rfl⟩
    have valid := isColor_fallbackIn fallback
    obtain ⟨color, read, -⟩ := valid.normal
    obtain ⟨value, wrong⟩ := Classical.not_forall.mp noObject
    obtain ⟨given, other⟩ := Classical.not_imp.mp wrong
    rw [ofFields_rules named valid read, given, Option.getD_some]
    split
    next entries => exact absurd ⟨entries, rfl⟩ other
    next => rfl
  | @color name label value before after named fallback object split others noColor =>
    obtain ⟨error, unread, told⟩ := displayedColor_of_not_isColor noColor (.invalidColor name label value)
    refine ⟨error, ?_, told⟩
    have valid := isColor_fallbackIn fallback
    obtain ⟨color, read, -⟩ := valid.normal
    rw [ofFields_rules named valid read, rulesIn_of_object object, split]
    dsimp only
    rw [rulesOf_noColor others unread]
    rfl

/-- What is refused has one first fault only. -/
theorem ofFields_unacceptable (refused : ¬ Acceptable room reader fields) :
    ∃ error fault, ofFields room fields reader = .error error ∧ error.said? = some fault ∧
      ∀ other, FirstFault room reader fields other ↔ other = fault := by
  obtain ⟨fault, first⟩ := exists_firstFault refused
  obtain ⟨error, read, told⟩ := first.reported
  refine ⟨error, fault, read, told, fun other => ⟨fun again => ?_, fun same => same ▸ first⟩⟩
  obtain ⟨reported, readAgain, toldAgain⟩ := again.reported
  obtain rfl := Except.error.inj (readAgain.symm.trans read)
  exact Option.some.inj (toldAgain.symm.trans told)

theorem Describes.settled {theme : Theme} (describes : Describes reader fields theme) (acceptable : Acceptable room reader fields)
    (distinct : ((rulesIn fields).map Prod.fst).Nodup) : Settled theme := by
  obtain ⟨named, fallback, rules⟩ := describes
  refine ⟨named.2, ?_, _, rules, ?_, ?_⟩
  · rw [fallback]
    exact (isColor_fallbackIn acceptable.fallback).normal
  · rwa [normalized, List.map_map]
  · exact List.forall_mem_map.mpr fun entry member => (acceptable.colors entry member).normal

theorem Describes.unique {first second : Theme} (one : Describes reader fields first) (other : Describes reader fields second) :
    first = second := by
  obtain ⟨name, rules, fallback⟩ := first
  obtain ⟨otherName, otherRules, otherFallback⟩ := second
  have names : name = otherName := by
    simpa using one.named.1.symm.trans other.named.1
  obtain rfl : rules = otherRules := one.rules.trans other.rules.symm
  obtain rfl : fallback = otherFallback := one.fallback.trans other.fallback.symm
  rw [names]

def writtenRules (rules : Rules) : List (List CodePoint × Json) := rules.entries.map fun entry => (entry.1, colorJson entry.2)

def written (name : List CodePoint) (fallback : String) (rules : Rules) : List (List CodePoint × Json) :=
  [("name", .string name), ("fallbackColor", .string fallback), ("rules", .object (writtenRules rules))]

private theorem map_fst_writtenRules (rules : Rules) : (writtenRules rules).map Prod.fst = rules.entries.map Prod.fst := by
  rw [writtenRules, List.map_map]
  rfl

variable {fallback : String} {rules : Rules}

private theorem fieldIn?_written_name : Json.fieldIn? (written name fallback rules) "name" = some (.string name) := by
  simp [written, Json.fieldIn?]

private theorem fieldIn?_written_fallback :
    Json.fieldIn? (written name fallback rules) "fallbackColor" = some (.string fallback) := by
  simp [written, Json.fieldIn?, List.lookup_cons]

private theorem fieldIn?_written_rules :
    Json.fieldIn? (written name fallback rules) "rules" = some (.object (writtenRules rules)) := by
  simp [written, Json.fieldIn?, List.lookup_cons]

private theorem rulesIn_written : rulesIn (written name fallback rules) = writtenRules rules := by
  rw [rulesIn, fieldIn?_written_rules]

/-- A normal colour is written as text that means it. -/
theorem normalized_writtenRules (colored : Colored rules) : normalized reader (writtenRules rules) = rules.entries := by
  rw [normalized, writtenRules, List.map_map]
  refine (List.map_congr_left (g := id) fun entry member => ?_).trans (List.map_id _)
  obtain ⟨label, color?⟩ := entry
  obtain ⟨color, rfl, normal⟩ := colored _ member
  exact congrArg (Prod.mk label) (reader.settled normal)

private theorem acceptable_written (named : name ≠ []) (normal : Color.isNormal fallback) (colored : Colored rules) :
    Acceptable room reader (written name fallback rules) := by
  refine ⟨⟨name, fieldIn?_written_name, named⟩, ?fallback, ?object, ?colors⟩
  case fallback =>
    intro value given
    obtain rfl := Option.some.inj (fieldIn?_written_fallback.symm.trans given)
    exact isColor_of_isNormal normal
  case object =>
    intro value given
    exact ⟨_, (Option.some.inj (fieldIn?_written_rules.symm.trans given)).symm⟩
  case colors =>
    rw [rulesIn_written]
    refine List.forall_mem_map.mpr fun entry member => ?_
    obtain ⟨color, given, normal⟩ := colored entry member
    rw [given]
    exact isColor_of_isNormal normal

/-- What is written of a settled theme describes it. -/
theorem describes_written (named : name ≠ []) (normal : Color.isNormal fallback) (colored : Colored rules) :
    Describes reader (written name fallback rules) ⟨name, some rules, some fallback⟩ := by
  refine ⟨⟨fieldIn?_written_name, named⟩, ?_, ?_⟩
  · rw [fallbackIn, fieldIn?_written_fallback]
    exact (reader.settled normal).symm
  · rw [rulesIn_written, normalized_writtenRules colored]

private theorem ofJson_toJson {theme : Theme} (settled : Settled theme) : ofJson room theme.toJson reader = .ok theme := by
  obtain ⟨name, rules?, fallback?⟩ := theme
  obtain ⟨named, ⟨fallback, rfl, normal⟩, rules, rfl, distinct, colored⟩ := settled
  have same : toJson ⟨name, some rules, some fallback⟩ = .object (written name fallback rules) := rfl
  have labels : ((rulesIn (written name fallback rules)).map Prod.fst).Nodup := by
    rwa [rulesIn_written, map_fst_writtenRules]
  have acceptable : Acceptable room reader (written name fallback rules) := acceptable_written named normal colored
  obtain ⟨again, read, describes⟩ := ofFields_acceptable acceptable labels
  rw [same, ofJson, read, describes.unique (describes_written named normal colored)]

end Reading

/-- An object makes a theme exactly when all of it is in order. The theme is what the object describes, and is
written and read back as it is. Otherwise the first thing that is wrong is reported, and nothing else: it
is a fault of the theme, unless it lies in a value that cannot even be shown. -/
theorem theme_files_are_checked (room : Nat) (reader : ColorReader) (fields : List (List CodePoint × Json))
    (distinct : ((rulesIn fields).map Prod.fst).Nodup) :
    ((∃ theme, ofJson room (.object fields) reader = .ok theme) ↔ Acceptable room reader fields) ∧
    (∀ theme, ofJson room (.object fields) reader = .ok theme →
      Describes reader fields theme ∧ Settled theme ∧ ofJson room theme.toJson reader = .ok theme) ∧
    ∀ error, ofJson room (.object fields) reader = .error error →
      (∃ refused, error = .invalid refused ∧ ∀ fault, FirstFault room reader fields fault ↔ fault = .ok refused.fault) ∨
        ∃ why, error = .unshown why ∧ ∀ fault, FirstFault room reader fields fault ↔ fault = .error why := by
  by_cases acceptable : Acceptable room reader fields
  · obtain ⟨theme, read, describes⟩ := ofFields_acceptable acceptable distinct
    have loaded : ofJson room (.object fields) reader = .ok theme := read
    rw [loaded]
    refine ⟨iff_of_true ⟨theme, rfl⟩ acceptable, ?_, nofun⟩
    rintro _ ⟨⟩
    have settled := describes.settled acceptable distinct
    exact ⟨describes, settled, ofJson_toJson settled⟩
  · obtain ⟨refused, fault, read, told, first⟩ := ofFields_unacceptable acceptable
    have rejected : ofJson room (.object fields) reader = .error refused := read
    rw [rejected]
    refine ⟨iff_of_false nofun acceptable, nofun, ?_⟩
    rintro _ ⟨⟩
    cases refused with
    | invalid error =>
      obtain rfl := Option.some.inj told
      exact Or.inl ⟨error, rfl, first⟩
    | unshown why =>
      obtain rfl := Option.some.inj told
      exact Or.inr ⟨why, rfl, first⟩
    | notJson | noFields => cases told

/-- A theme, one with a rule that is no colour, and one with an integer that is too long. -/
theorem theme_files_are_checked_mine :
    let good : List (List CodePoint × Json) := [("name", .string "mine"), ("rules", .object [("tok-keyword", .string "#00FF7F")])]
    let bad : List (List CodePoint × Json) := [("name", .string "mine"), ("rules", .object [("tok-keyword", .null)])]
    let long (n : Nat) : List (List CodePoint × Json) := [("name", .string "mine"), ("fallbackColor", .integer n), ("rules", .null)]
    (((rulesIn good).map Prod.fst).Nodup ∧ ∃ theme, ofJson 0 (.object good) = .ok theme ∧
        theme = ⟨"mine", some ⟨[("tok-keyword", some "#00ff7f")]⟩, some "#ff0000"⟩ ∧ ofJson 0 theme.toJson = .ok theme) ∧
      (((rulesIn bad).map Prod.fst).Nodup ∧ ∃ refused, ofJson 0 (.object bad) = .error (.invalid refused) ∧
        refused.fault.message = "Invalid color None (theme 'mine') (rule 'tok-keyword')" ∧
        FirstFault 0 .hex bad (.ok refused.fault)) ∧
      ∃ n, n = Json.shownBelow ∧ ((rulesIn (long n)).map Prod.fst).Nodup ∧
        ofJson 0 (.object (long n)) = .error (.unshown .tooLong) ∧ FirstFault 0 .hex (long n) (.error .tooLong) := by
  intro good bad long
  have goodLabels : ((rulesIn good).map Prod.fst).Nodup := by decide
  have badLabels : ((rulesIn bad).map Prod.fst).Nodup := by decide
  have loaded : ofJson 0 (.object good) = .ok ⟨"mine", some ⟨[("tok-keyword", some "#00ff7f")]⟩, some "#ff0000"⟩ := by
    simp only [good]
    rfl
  have shown : Json.null.shown = "None" := by rw [Json.shown]
  have displayed : Json.null.display = "None" := by
    rw [Json.display, shown]
    exact fun _ => Json.noConfusion
  have rejected : ofJson 0 (.object bad) = .error (.invalid (.invalidColor "mine" "tok-keyword" .null)) := by
    have unread : displayedColor 0 .hex .null (.invalidColor "mine" "tok-keyword" .null) =
        .error (.invalid (.invalidColor "mine" "tok-keyword" .null)) := by
      rw [displayedColor, displayed]
      rfl
    have default : IsColor 0 .hex (fallbackIn bad) := isColor_of_isNormal (by decide)
    have rules : ofFields 0 bad = (rulesOf 0 .hex "mine" {} [("tok-keyword", .null)]).map
        fun rules => ⟨"mine", some rules, some "#ff0000"⟩ :=
      ofFields_rules ⟨rfl, by decide⟩ default (ColorReader.hex.settled (by decide))
    rw [ofJson, rules, rulesOf, unread]
    rfl
  obtain ⟨refused, same, first⟩ | ⟨why, same, -⟩ := (theme_files_are_checked 0 .hex bad badLabels).2.2 _ rejected
  case inr => cases same
  cases same
  refine ⟨⟨goodLabels, _, loaded, rfl, ((theme_files_are_checked 0 .hex good goodLabels).2.1 _ loaded).2.2⟩,
    ⟨badLabels, _, rejected, ?_, (first _).mpr rfl⟩, ?_⟩
  · have described (value : Json) : (ThemeError.invalidColor "mine" "tok-keyword" value).fault =
        ⟨"Invalid color " ++ value.shown, some "mine", some "tok-keyword"⟩ := rfl
    rw [described, shown]
    rfl
  · -- the number is kept out of sight, since it is not to be computed
    obtain ⟨n, large⟩ : ∃ n, n = Json.shownBelow := ⟨_, rfl⟩
    have labels : ((rulesIn (long n)).map Prod.fst).Nodup := List.nodup_nil
    have unshown : ofFields 0 (long n) = .error (.unshown .tooLong) :=
      ofFields_unshown ⟨rfl, by decide⟩ rfl (Json.unshown?_integer large.ge)
    obtain ⟨refused, same, -⟩ | ⟨why, same, first⟩ := (theme_files_are_checked 0 .hex (long n) labels).2.2 _ unshown
    · cases same
    · cases same
      exact ⟨n, large, labels, unshown, (first _).mpr rfl⟩

/-- An integer that is too long to be shown is no fault of a theme. -/
theorem not_every_refusal_is_fault :
    ¬ ∀ (room : Nat) (reader : ColorReader) (fields : List (List CodePoint × Json)), ((rulesIn fields).map Prod.fst).Nodup →
      (∃ theme, ofJson room (.object fields) reader = .ok theme) ∨
        ∃ refused, ofJson room (.object fields) reader = .error (.invalid refused) := by
  intro law
  obtain ⟨n, large⟩ : ∃ n, n = Json.shownBelow := ⟨_, rfl⟩
  have unshown : ofFields 0 [("name", .string "t"), ("fallbackColor", .integer n)] = .error (.unshown .tooLong) :=
    ofFields_unshown ⟨rfl, by decide⟩ rfl (Json.unshown?_integer large.ge)
  obtain ⟨theme, read⟩ | ⟨refused, read⟩ := law 0 .hex [("name", .string "t"), ("fallbackColor", .integer n)] List.nodup_nil
  · cases unshown.symm.trans read
  · cases unshown.symm.trans read

end Highlight.Theme
