import TableGateway.Placeholder
import TableGateway.Update.Atomic

/-!
# Update expressions

An update sets the values that are not null, makes atomic operations and removes attributes. Its text
has at most one clause of each of four kinds, always in the same order, and uses plain tokens.
-/
namespace TableGateway

/-- The fragments of an update, by the kind of their clause. -/
structure UpdateClauses where
  set : List Text
  add : List Text
  delete : List Text
  remove : List Text

namespace UpdateClauses

/-- A clause is left out where it has no fragment. -/
def part (keyword : Text) (fragments : List Text) : List Text :=
  if fragments.isEmpty then [] else [keyword ++ " " ++ Text.intercalate ", " fragments]

def text (c : UpdateClauses) : Text :=
  Text.intercalate " "
    (part "SET" c.set ++ part "ADD" c.add ++ part "DELETE" c.delete ++ part "REMOVE" c.remove)

end UpdateClauses

namespace AtomicOperation

/-- Tokens of an update have no stem. -/
def name (property : Value) : Text := Encoder.plain.name property.display

def value (property : Value) : Text := Encoder.plain.value property.display

/-- What an operation writes into the clause of values, if it belongs there. -/
def setFragment? (o : AtomicOperation) : Option Text :=
  let n := name o.property
  let v := value o.property
  match o.change with
  | .sum => some (n ++ " = " ++ n ++ " + " ++ v)
  | .subtract => some (n ++ " = " ++ n ++ " - " ++ v)
  | .setIfNotExists => some (n ++ " = if_not_exists(" ++ name o.reference ++ ", " ++ v ++ ")")
  | _ => none

def addFragment? (o : AtomicOperation) : Option Text :=
  match o.change with
  | .add | .addToSet => some (name o.property ++ " " ++ value o.property)
  | _ => none

def deleteFragment? (o : AtomicOperation) : Option Text :=
  match o.change with
  | .removeFromSet => some (name o.property ++ " " ++ value o.property)
  | _ => none

/-- An operation that can be written, since what it names has a text. -/
def writable (raw : Value) : Result AtomicOperation := do
  let o ← parse raw
  if o.names.all Value.hasDisplay then return o else .error .wrongType

end AtomicOperation

namespace Update

/-- The values to set: those that are not null. -/
def assignments (values : Value) : Result Fields := do
  return (← values.entriesOrNone).filter fun e => !e.2.isNull

def removals (remove : Value) : Result (List Value) := remove.elementsOrNone

def operations (atomic : Value) : Result (List AtomicOperation) := do
  (← atomic.elementsOrNone).mapM AtomicOperation.parse

def clauses (sets : Fields) (ops : List AtomicOperation) (removed : List Value) :
    UpdateClauses where
  set := sets.map (fun e => Encoder.plain.name e.1 ++ " = " ++ Encoder.plain.value e.1)
    ++ ops.filterMap AtomicOperation.setFragment?
  add := ops.filterMap AtomicOperation.addFragment?
  delete := ops.filterMap AtomicOperation.deleteFragment?
  remove := removed.map AtomicOperation.name

def expression (values remove atomic : Value) : Result Text := do
  let sets ← assignments values
  let ops ← (← atomic.elementsOrNone).mapM AtomicOperation.writable
  let removed ← removals remove
  if removed.all Value.hasDisplay then return (clauses sets ops removed).text
  else .error .wrongType

/-- The names of atomic operations bound one after the other, each as soon as it is read. -/
def bindOperationNames (target : Fields) : List Value → Result Fields
  | [] => .ok target
  | raw :: raws => do
    let o ← AtomicOperation.parse raw
    bindOperationNames (← Placeholder.bindNames .plain target o.names) raws

/-- Names of the values come first, then those of the removals, then those of the operations. -/
def names (values remove atomic : Value) : Result Fields := do
  let sets ← assignments values
  let bound ← Placeholder.bindNames .plain [] ((Entries.keys sets).map .text)
  let bound ← Placeholder.bindNames .plain bound (← removals remove)
  bindOperationNames bound (← atomic.elementsOrNone)

/-- The operands of atomic operations bound one after the other, each as soon as it is read. -/
def bindOperands (create : SetMaker) (target : Fields) : List Value → Result Fields
  | [] => .ok target
  | raw :: raws => do
    let o ← AtomicOperation.parse raw
    let v ← o.handedOver create
    let property ← o.property.shown
    bindOperands create (← Placeholder.bind target (Encoder.plain.value property) v) raws

def valuesWith (create : SetMaker) (values atomic : Value) : Result Fields := do
  let sets ← assignments values
  let bound ← Placeholder.bindAll [] (sets.map fun e => (Encoder.plain.value e.1, e.2))
  bindOperands create bound (← atomic.elementsOrNone)

def values (shape : SetShape) (values atomic : Value) : Result Fields :=
  valuesWith shape.build values atomic

end Update

end TableGateway
