import TableGateway.Condition.Basic
import TableGateway.Value.Reading

/-!
# Reading conditions

A condition comes as a record or as a map with the entries property, operation, the operands, join
and nested; low and high may be called start and end, and the join is written in either of two ways.
The property of a map is taken by its text, that of a record as it is.
A group may have been given members that are no conditions, which shows when the group is used: a
`Forest` holds the trees up to such a member.
-/
namespace TableGateway

namespace Condition

def readOperation (v : Value) : Result Operation :=
  match v.text?.bind Operation.ofName? with
  | some op => .ok op
  | none => refuse (.unknownOperation v)

@[simp] theorem readOperation_text (op : Operation) : readOperation (.text op.name) = .ok op := by
  simp [readOperation, Value.text?]

def readJoin (v : Value) : Result Join :=
  match v.text?.bind Join.ofName? with
  | some j => .ok j
  | none => refuse (.unknownJoin v)

/-- The operands of a test that takes several; text, bytes and maps are no such row. -/
def readOperands (op : Operation) (values : Value) : Result (Option (List Value)) :=
  match values with
  | .null => .ok none
  | .text _ | .map _ => refuse (.valuesNotSequence op)
  | .blob b =>
    if b.mutable || b.wrapped then some <$> values.elements else refuse (.valuesNotSequence op)
  | _ => some <$> values.elements

def readExistence (op : Operation) (test : Test) (value : Value) (values : Option (List Value))
    (low high : Value) : Result Test :=
  if !value.isNull || values.isSome || !low.isNull || !high.isNull then refuse (.takesNoValue op)
  else .ok test

def readList (op : Operation) (test : List Value → Test) (value : Value)
    (values : Option (List Value)) (low high : Value) : Result Test :=
  match values with
  | none => refuse (.requiresValues op)
  | some vs =>
    if !value.isNull || !low.isNull || !high.isNull then refuse (.onlyTakesValues op)
    else .ok (test vs)

def readBetween (value : Value) (values : Option (List Value)) (low high : Value) : Result Test :=
  if low.isNull || high.isNull then refuse .requiresBounds
  else if !value.isNull || values.isSome then refuse .onlyTakesBounds
  else .ok (.between low high)

def readComparison (how : Comparison) (value : Value) (values : Option (List Value))
    (low high : Value) : Result Test :=
  if value.isNull then refuse (.requiresValue how.operation)
  else if values.isSome || !low.isNull || !high.isNull then refuse (.onlyTakesValue how.operation)
  else .ok (.compare how value)

def readTest (op : Operation) (value : Value) (values : Option (List Value)) (low high : Value) :
    Result Test :=
  match op with
  | .exists => readExistence op .present value values low high
  | .notExists => readExistence op .absent value values low high
  | .oneOf => readList op .oneOf value values low high
  | .noneOf => readList op .noneOf value values low high
  | .between => readBetween value values low high
  | .equal => readComparison .equal value values low high
  | .notEqual => readComparison .notEqual value values low high
  | .lowerThan => readComparison .lowerThan value values low high
  | .lowerOrEqualThan => readComparison .lowerOrEqualThan value values low high
  | .biggerThan => readComparison .biggerThan value values low high
  | .biggerOrEqualThan => readComparison .biggerOrEqualThan value values low high
  | .beginsWith => readComparison .beginsWith value values low high
  | .contains => readComparison .contains value values low high
  | .notContains => readComparison .notContains value values low high

/-- A condition from the seven fields of its record, in the order in which faults are reported. -/
def ofFields (property operation value values low high join : Value) : Result Condition := do
  if !property.truthy then refuse .propertyRequired
  let op ← readOperation operation
  let join ← readJoin join
  let operands ← readOperands op values
  let test ← readTest op value operands low high
  return ⟨property, test, join⟩

def ofRecord? : List Value → Option Condition
  | [property, operation, value, values, low, high, join] =>
    (ofFields property operation value values low high join).toOption
  | _ => none

/-- The condition that a map describes, without what is nested in it. -/
def ofMap (es : Fields) : Result Condition := do
  let property ← ((Value.entry es "property").orElse (.text "")).shown
  let op ← readOperation ((Value.entry es "operation").orElse (.text ""))
  let values := Value.entry es "values"
  let operands ← if values.isNull then .ok .null else .tuple <$> values.elements
  ofFields (.text property) (.text op.name) (Value.entry es "value") operands
    (Value.entryOr es "low" "start") (Value.entryOr es "high" "end")
    ((Value.entryOr es "join_as" "joinAs").orElse (.text "and"))

/-- The record of a condition with what is nested in it. -/
def nestValue (head : Condition) : List Value → Value
  | [] => head.toValue
  | vs => .record .group [.tuple (head.toValue :: vs), .text head.join.name]

mutual

/-- A description of a condition as a record: maps are read, records stay as they are. -/
def parse : Value → Result Value
  | .record .condition fields => .ok (.record .condition fields)
  | .record .group fields => .ok (.record .group fields)
  | .map es => do
    let head ← ofMap es
    return nestValue head (← parseNested es)
  | v => refuse (.unknownCondition v.typeName)

/-- What the map nests, empty where it says nothing of it. -/
def parseNested : List (Text × Value) → Result (List Value)
  | [] => .ok []
  | (k, v) :: es => if k = "nested" then parseMembers v else parseNested es

def parseMembers : Value → Result (List Value)
  | .list vs | .tuple vs | .set _ vs => parseAll vs
  | .text s => if s = "" then .ok [] else refuse (.unknownCondition "str")
  | .map es => if es.isEmpty then .ok [] else refuse (.unknownCondition "str")
  | .blob b =>
    if b.wrapped then .error .wrongType
    else if b.bytes.isEmpty then .ok [] else refuse (.unknownCondition "int")
  | v => if v.truthy then .error .wrongType else .ok []

def parseAll : List Value → Result (List Value)
  | [] => .ok []
  | v :: vs => do
    let v ← parse v
    return v :: (← parseAll vs)

end

end Condition

/-- The trees up to the first member that is no condition; `broken` says that there is one. -/
structure Forest where
  trees : List Tree
  broken : Bool

namespace Forest

mutual

/-- A record as a tree, and whether a member that is no condition was met in it. -/
def readTree : Value → Option Tree × Bool
  | .record .condition fields =>
    match Condition.ofRecord? fields with
    | some c => (some (.leaf c), false)
    | none => (none, true)
  | .record .group [.tuple members, join] =>
    let (ts, broken) := readTrees members
    (some (.group ts ((join.text?.bind Join.ofName?).getD .and)), broken)
  | _ => (none, true)

def readTrees : List Value → List Tree × Bool
  | [] => ([], false)
  | v :: vs =>
    match readTree v with
    | (t, true) => (t.toList, true)
    | (t, false) => let (ts, broken) := readTrees vs; (t.toList ++ ts, broken)

end

def ofRecords (vs : List Value) : Forest :=
  let (trees, broken) := readTrees vs
  ⟨trees, broken⟩

/-- The conditions that a row of descriptions stands for. -/
def read (conditions : Value) : Result Forest := do
  let vs ← conditions.elements
  let records ← Condition.parseAll vs
  return ofRecords records

/-- An answer taken from the trees, unless a member that is no condition stands in the way. -/
def whole {α : Type} (f : Forest) (answer : Result α) : Result α := do
  let a ← answer
  if f.broken then .error .noSuchPart else return a

def properties (f : Forest) : Result (List Value) := f.whole (.ok (Tree.propertiesAll f.trees))

end Forest

end TableGateway
