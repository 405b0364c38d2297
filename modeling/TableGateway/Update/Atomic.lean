import TableGateway.Value.Reading

/-!
# Atomic operations

A change of one attribute that the store makes in place. It comes as a record or as a map with the
entries property, type, value and, in either of two spellings, the property to refer to. The property
of a map is taken by its text; every other property is any value that is not empty.
-/
namespace TableGateway

structure AtomicOperation where
  property : Value
  change : Change
  operand : Value
  source : Value
  deriving Repr, Inhabited

/-- How the elements of a set are made what is handed over. -/
abbrev SetMaker := List Value → Result Value

/-- The containers in which the elements of a set are handed over. -/
inductive SetShape where
  | set
  | frozenSet
  | list
  | tuple
  deriving DecidableEq, Repr, Inhabited

namespace SetShape

def build : SetShape → SetMaker
  | set, vs => Value.setOf false vs
  | frozenSet, vs => Value.setOf true vs
  | list, vs => .ok (.list vs)
  | tuple, vs => .ok (.tuple vs)

end SetShape

namespace AtomicOperation

def readChange (v : Value) : Result Change :=
  match v.text?.bind Change.ofName? with
  | some c => .ok c
  | none => refuse (.unknownChange v)

def ofFields (property type value source : Value) : Result AtomicOperation := do
  if !property.truthy then refuse .changePropertyRequired
  let change ← readChange type
  return ⟨property, change, value, source⟩

def parse : Value → Result AtomicOperation
  | .record .atomicOperation [property, type, value, source] => ofFields property type value source
  | .map es => do
    let property ← ((Value.entry es "property").orElse (.text "")).shown
    ofFields (.text property) (Value.entry es "type") (Value.entry es "value")
      (Value.entryOr es "ref_property" "refProperty")
  | _ => .error .noSuchPart

def toValue (o : AtomicOperation) : Value :=
  .record .atomicOperation [o.property, .text o.change.name, o.operand, o.source]

/-- An attribute named apart from the property, from which a value that is set may be taken. -/
def otherSource? (o : AtomicOperation) : Option Value :=
  if o.change = .setIfNotExists ∧ o.source.truthy then some o.source else none

/-- The attribute that is read: another one only when a value is set where none is. -/
def reference (o : AtomicOperation) : Value := o.otherSource?.getD o.property

/-- The attributes that an operation names. -/
def names (o : AtomicOperation) : List Value := o.property :: o.otherSource?.toList

/-- The elements for which an operand stands where a set is meant. -/
def elements : Value → List Value
  | .list vs | .tuple vs | .set _ vs => vs
  | v => [v]

/-- The operand as it is handed over. -/
def handedOver (create : SetMaker) (o : AtomicOperation) : Result Value :=
  if o.change.takesSet then create (elements o.operand) else .ok o.operand

end AtomicOperation

end TableGateway
