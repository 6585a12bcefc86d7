import Highlight.Text.Letter

/-! The names under which easing curves are known. Four families exist of each of the basic
shapes. -/

namespace Highlight.Curve

def shapes : List String :=
  ["Quad", "Cubic", "Quart", "Quint", "Sine", "Expo", "Circ", "Elastic", "Back", "Bounce"]

def families : List String := ["In", "Out", "InOut", "OutIn"]

def others : List String :=
  ["InCurve", "OutCurve", "SineCurve", "CosineCurve", "BezierSpline", "TCBSpline", "Custom", "NCurveTypes"]

def names : List String := "Linear" :: shapes.flatMap (fun shape => families.map (· ++ shape)) ++ others

def isKnown (name : String) : Bool := names.contains name

def named? (text : List CodePoint) : Option String := names.find? fun name => (name : List CodePoint) == text

theorem isKnown_of_named {text : List CodePoint} {name : String} (named : named? text = some name) : isKnown name :=
  List.contains_iff_mem.mpr (List.mem_of_find?_eq_some named)

theorem named?_of_isKnown {name : String} (known : isKnown name) : named? name = some name := by
  cases found : named? name with
  | none =>
    have apart := List.find?_eq_none.mp found name (List.contains_iff_mem.mp known)
    exact absurd (beq_self_eq_true (CodePoint.ofString name)) apart
  | some other =>
    obtain ⟨same, -⟩ := List.find?_eq_some_iff_append.mp found
    rw [CodePoint.ofString_inj.mp (eq_of_beq same)]

end Highlight.Curve
