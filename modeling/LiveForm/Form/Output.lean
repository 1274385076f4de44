/-!
# Declarations of outputs
-/

namespace LiveForm

/-- The declared attributes of an output field. -/
structure OutputSpec where
  /-- The field that the computed value is written to. -/
  id : String
  /-- Computes the value. -/
  expression : String
  /-- The name of a display format; without one the value is shown plainly. -/
  format : Option String := none
  /-- Write the value to the field; otherwise only watchers hear of it. -/
  autoApply : Bool := true
  /-- Leave the field alone while it is edited by hand. -/
  skipWhileEditing : Bool := false
  /-- Further variables on which the output depends. -/
  triggerVariables : List String := []
  /-- Where in the form the field lives. -/
  scope : String := ""
  deriving DecidableEq, Inhabited

end LiveForm
