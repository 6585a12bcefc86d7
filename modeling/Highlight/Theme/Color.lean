import Highlight.Scan.Charset
import Highlight.Text.Letter

/-! Colours as files write them: a hash and six hexadecimal digits, in lower case when
normalized. What else can be read as a colour is up to the one who reads it. -/

namespace Highlight

namespace Color

def isHexColor : List Char → Bool
  | '#' :: digits => digits.length == 6 && digits.all Scan.isHexDigit
  | _ => false

def normalize? (text : List CodePoint) : Option String :=
  if isHexColor (Letter.chars text) then some (String.ofList ((Letter.chars text).map Char.toLower)) else none

def isNormal (text : String) : Bool := isHexColor text.toList && text.toList.all fun c => !c.isUpper

theorem toLower_hexDigit {c : Char} (digit : Scan.isHexDigit c) :
    Scan.isHexDigit c.toLower ∧ (!c.toLower.isUpper) = true := by
  have each : ∀ c ∈ "0123456789abcdefABCDEF".toList, (Scan.isHexDigit c.toLower && !c.toLower.isUpper) = true :=
    List.all_eq_true.mp rfl
  exact (Bool.and_eq_true _ _).mp (each c (Scan.isHexDigit_iff.mp digit))

theorem isNormal_of_normalize {text : List CodePoint} {color : String} (normalized : normalize? text = some color) :
    isNormal color := by
  unfold normalize? at normalized
  split at normalized
  next hex =>
    cases normalized
    unfold isHexColor at hex
    split at hex
    next digits written =>
      obtain ⟨six, all⟩ := (Bool.and_eq_true _ _).mp hex
      have each := fun c inside => toLower_hexDigit (List.all_eq_true.mp all c inside)
      have hash : '#'.toLower = '#' := rfl
      simp only [isNormal, isHexColor, written, hash, six, String.toList_ofList, List.map_cons, List.length_map,
        List.all_cons, List.all_map, Bool.and_eq_true, List.all_eq_true]
      exact ⟨⟨trivial, fun c inside => (each c inside).1⟩, rfl, fun c inside => (each c inside).2⟩
    next => cases hex
  next => cases normalized

theorem toLower_of_not_isUpper {c : Char} (lower : (!c.isUpper) = true) : c.toLower = c :=
  dif_neg fun upper => of_decide_eq_false (Bool.not_eq_eq_eq_not.mp lower) upper

theorem normalize_of_isNormal {color : String} (normal : isNormal color) : normalize? color = some color := by
  obtain ⟨hex, lower⟩ := (Bool.and_eq_true _ _).mp normal
  have kept : color.toList.map Char.toLower = color.toList :=
    (List.map_congr_left fun c inside => toLower_of_not_isUpper (List.all_eq_true.mp lower c inside)).trans (List.map_id _)
  rw [normalize?, Letter.chars_ofString, if_pos hex, kept, String.ofList_toList]

end Color

/-- A reader of colours. It may know names and short forms too, but it gives every colour its
normal form, and it reads a normal form back as it stands. -/
structure ColorReader where
  normalize? : List CodePoint → Option String
  normal {text : List CodePoint} {color : String} : normalize? text = some color → Color.isNormal color
  settled {color : String} : Color.isNormal color → normalize? color = some color

def ColorReader.hex : ColorReader := ⟨Color.normalize?, Color.isNormal_of_normalize, Color.normalize_of_isNormal⟩

end Highlight
