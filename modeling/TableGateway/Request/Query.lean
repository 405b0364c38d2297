import TableGateway.Filter
import TableGateway.Projection
import TableGateway.Token

/-!
# Requests for many items

A query asks for the items of one partition, a scan for those of a table. The clauses of a request
share one map of names and one of operands, which is possible unless they bind a token differently.
-/
namespace TableGateway

/-- A test of the sort key, with the operands that its operation may need. -/
structure RangeKey where
  name : Value
  operation : Operation
  value : Value
  low : Value
  high : Value

namespace RangeKey

def ofFields (name operation value low high : Value) : Result RangeKey := do
  let op ← Condition.readOperation operation
  if op.onRangeKey then return ⟨name, op, value, low, high⟩ else refuse (.notOnRangeKey op)

def toValue (k : RangeKey) : Value :=
  .record .rangeKey [k.name, .text k.operation.name, k.value, k.low, k.high]

/-- The condition on the sort key; operands that the operation does not take are left out. -/
def condition (k : RangeKey) : Result Condition :=
  let join := Value.text Join.and.name
  if k.operation = .between then
    Condition.ofFields k.name (.text k.operation.name) .null .null k.low k.high join
  else Condition.ofFields k.name (.text k.operation.name) k.value .null .null .null join

def ofRecord : Value → Result RangeKey
  | .record .rangeKey [name, operation, value, low, high] =>
    ofFields name operation value low high
  | _ => .error .noSuchPart

end RangeKey

/-- Maps of names and operands for all clauses of a request, and its other fields. -/
structure Bindings where
  names : Fields
  values : Fields

namespace Bindings

def ofClause (c : Clause) : Bindings := ⟨c.names, c.values⟩

def empty : Bindings := ⟨[], []⟩

/-- The tokens of a further clause, which may not collide with those before. -/
def add (b : Bindings) : Option Clause → Result Bindings
  | none => .ok b
  | some c => do
    let names ← Placeholder.merge [b.names, c.names]
    let values ← Placeholder.merge [b.values, c.values]
    return ⟨names, values⟩

def nameFields (b : Bindings) : Fields :=
  if b.names.isEmpty then [] else [("ExpressionAttributeNames", .map b.names)]

def valueFields (b : Bindings) : Fields :=
  if b.values.isEmpty then [] else [("ExpressionAttributeValues", .map b.values)]

end Bindings

def expressionField (name : Text) (c : Option Clause) : Fields :=
  (c.map fun c => (name, Value.text c.expression)).toList

/-- A field that is there when its value is not empty. -/
def optionalField (name : Text) (v : Value) : Fields := if v.truthy then [(name, v)] else []

/-- The key after which to go on, where a token is given. -/
def startField (token : Value) : Result Fields :=
  if token.truthy then do return [("ExclusiveStartKey", .map (← Token.decode token))] else .ok []

/-- A limit is a number above zero or missing. -/
def checkLimit (limit : Value) : Result Unit :=
  if limit.isNull then .ok () else do
    if ← limit.atMost (.int 0) then refuse .limitNotPositive

/-- What is asked for when items of one partition are read. -/
structure QueryParams where
  table : Value
  partitionKey : Value
  rangeKey : Value
  index : Value
  order : Value
  token : Value
  limit : Value
  fullRetrieval : Value
  filters : Value

namespace QueryParams

def check (p : QueryParams) : Result Unit := do
  match p.order with
  | .text "ASC" | .text "DESC" => checkLimit p.limit
  | _ => refuse .unknownOrder

def partitionCondition (p : QueryParams) : Result Condition := do
  match p.partitionKey.field? "name", p.partitionKey.field? "value" with
  | some name, some value =>
    Condition.ofFields name (.text Operation.equal.name) value .null .null .null
      (.text Join.and.name)
  | _, _ => .error .noSuchPart

/-- The partition is asked for first, then the range where there is one. -/
def keyConditions (p : QueryParams) : Result (List Tree) := do
  let partition ← p.partitionCondition
  if p.rangeKey.isNull then return [.leaf partition]
  let range ← (← RangeKey.ofRecord p.rangeKey).condition
  return [.leaf partition, .leaf range]

def request (p : QueryParams) : Result Fields := do
  let key ← Tree.compile .plain (← p.keyConditions)
  let filter ← Filter.clause p.filters
  let bindings ← (Bindings.ofClause key).add filter
  let start ← startField p.token
  return ([("TableName", p.table), ("KeyConditionExpression", .text key.expression)] : Fields)
    ++ bindings.nameFields ++ ([("ExpressionAttributeValues", .map bindings.values)] : Fields)
    ++ ([("ScanIndexForward", .bool (p.order.text? = some ("ASC" : Text)))] : Fields)
    ++ optionalField "IndexName" p.index
    ++ expressionField "FilterExpression" filter
    ++ start

end QueryParams

/-- What is asked for when a table is read through. -/
structure ListOptions where
  filters : Value
  limit : Value
  consistentRead : Value
  properties : Value
  index : Value
  segment : Value
  totalSegments : Value
  token : Value

namespace ListOptions

def default : ListOptions :=
  ⟨.null, .null, .bool false, .null, .null, .null, .null, .null⟩

/-- A segment comes with the number of segments and is one of them. -/
def checkSegment (segment total : Value) : Result Unit :=
  if segment.isNull ≠ total.isNull then refuse .segmentAlone
  else if total.isNull then .ok ()
  else do
    if ← total.atMost (.int 0) then refuse .segmentOutside
    if !(← (Value.int 0).atMost segment) then refuse .segmentOutside
    if !(← segment.lessThan total) then refuse .segmentOutside

def check (o : ListOptions) : Result Unit := do
  checkSegment o.segment o.totalSegments
  checkLimit o.limit

def ofRecord : Value → Result ListOptions
  | .record .listOptions [filters, limit, consistent, properties, index, segment, total, token] =>
    .ok ⟨filters, limit, consistent, properties, index, segment, total, token⟩
  | v => if v.truthy then .error .noSuchPart else .ok default

def request (table : Value) (o : ListOptions) : Result Fields := do
  let filter ← Filter.clause o.filters
  let filtered ← Bindings.empty.add filter
  let projection ← Projection.read o.properties
  let bindings ← filtered.add projection
  let start ← startField o.token
  return ([("TableName", table)] : Fields)
    ++ optionalField "IndexName" o.index
    ++ (if o.limit.isNull then [] else [("Limit", o.limit)] : Fields)
    ++ (if o.consistentRead.truthy then [("ConsistentRead", .bool true)] else [] : Fields)
    ++ (if o.totalSegments.isNull then []
      else [("Segment", o.segment), ("TotalSegments", o.totalSegments)] : Fields)
    ++ bindings.nameFields ++ bindings.valueFields
    ++ expressionField "FilterExpression" filter
    ++ expressionField "ProjectionExpression" projection
    ++ start

end ListOptions

end TableGateway
