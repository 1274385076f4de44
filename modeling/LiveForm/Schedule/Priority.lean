/-!
# Priorities
-/

namespace LiveForm

/-- The class of a waiting update; a higher one runs first. -/
inductive Priority where
  | low
  | normal
  | high
  deriving DecidableEq, Repr, Inhabited

namespace Priority

/-- Higher classes have higher ranks. -/
def rank : Priority → Nat
  | low => 0
  | normal => 1
  | high => 2

def name : Priority → String
  | low => "LOW"
  | normal => "NORMAL"
  | high => "HIGH"

def all : List Priority := [low, normal, high]

theorem rank_injective {p q : Priority} (h : p.rank = q.rank) : p = q := by
  cases p <;> cases q <;> first | rfl | simp [rank] at h

end Priority

end LiveForm
