/-!
# Comparing without regard to ASCII case

Names in a style sheet (`url`, `!important`, the name of an at-rule, the unit of a length) are
compared without regard to the case of the letters `A` to `Z`.  No other letter has a case here: `K`
is not equal to the Kelvin sign.
-/

namespace LosslessCss.Text

/-- Equality up to the case of ASCII letters. -/
def eqIgnoringCase (s t : List Char) : Bool :=
  s.map Char.toLower == t.map Char.toLower

@[simp] theorem eqIgnoringCase_refl (s : List Char) : eqIgnoringCase s s = true := by
  simp [eqIgnoringCase]

end LosslessCss.Text
