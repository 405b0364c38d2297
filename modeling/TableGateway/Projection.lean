import TableGateway.Placeholder

/-!
# Projections

The attributes that an answer is cut down to, by tokens of their own stem.
-/
namespace TableGateway.Projection

def text (properties : List Value) : Text :=
  Text.intercalate ", " (properties.map fun p => Encoder.ofProjection.name p.display)

/-- The names of attributes in a clause of their own. -/
def clause (properties : List Value) : Result Clause := do
  let names ← Placeholder.bindNames .ofProjection [] properties
  return ⟨text properties, names, []⟩

/-- The clause of a row of names; none where there are none. -/
def read (properties : Value) : Result (Option Clause) :=
  if properties.truthy then do some <$> clause (← properties.elements) else .ok none

end TableGateway.Projection
