/-!
# Scopes

A scope is a dotted path into the tree of a form.
-/

namespace LiveForm

/-- A field with the scope `inner` lies within `scope`.  No scope, or an empty one, is the whole
tree. -/
def inScope (inner : String) (scope : Option String) : Bool :=
  match scope with
  | none => true
  | some s => s == "" || inner == s || (s ++ ".").toList.isPrefixOf inner.toList

end LiveForm
