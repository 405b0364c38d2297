import TableGateway.Condition.Reading
import TableGateway.Update.Expression
import TableGateway.Value.Containment

/-!
# Rules for updates

A key has one or two attributes, at least one attribute changes, no key attribute does, none changes
twice, and no property stands in two conditions. The first rule that is broken is reported.
-/
namespace TableGateway.Update

def hasRepeats : List Value → Bool
  | [] => false
  | x :: xs => xs.any (Value.same x) || hasRepeats xs

/-- Does one thing stand there twice? Only what can be a member of a set is counted. -/
def repeats (vs : List Value) : Result Bool :=
  if Value.allHashable vs then .ok (hasRepeats vs) else .error .wrongType

def refuseFlaw {α : Type} (flaw : UpdateFlaw) : Result α := .error (.malformedUpdate flaw)

/-- The attributes that an update changes, once for each time that it does. -/
def touched (values remove atomic : Value) : Result (List Value) := do
  let sets ← assignments values
  let removed ← removals remove
  let ops ← operations atomic
  return (Entries.keys sets).map .text ++ removed ++ ops.map (·.property)

/-- The properties in conditions, once for each condition. -/
def conditionProperties (conditions : Value) : Result (List Value) :=
  if conditions.truthy then do (← Forest.read conditions).properties else .ok []

def validate (key values remove atomic conditions : Value) : Result Unit := do
  let count ← key.size
  if count ≠ 1 ∧ count ≠ 2 then refuseFlaw .invalidKey
  let names ← touched values remove atomic
  if names.isEmpty then refuseFlaw .noMutation
  if ← names.anyM key.contains then refuseFlaw .keyPropertyUpdated
  if ← repeats names then refuseFlaw .overlappingProperties
  if ← repeats (← conditionProperties conditions) then refuseFlaw .duplicateCondition

end TableGateway.Update
