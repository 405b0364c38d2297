import TableGateway.Condition.Expression
import TableGateway.Projection
import TableGateway.Update.Rules

/-!
# Requests for one item

Reading, writing, deleting and updating one item. A request is a map of fields in the order in which
they are filled in; tokens of a condition have a stem of their own, those of an update have none.
-/
namespace TableGateway

/-- What is asked for when one item is read. -/
structure GetParams where
  table : Value
  key : Value
  consistentRead : Value
  properties : Value

/-- What is asked for when an item is written. -/
structure CreateParams where
  table : Value
  item : Value
  conditions : Value

/-- What is asked for when an item is deleted. -/
structure DeleteParams where
  table : Value
  key : Value
  conditions : Value

/-- What is asked for when an item is updated: values to set, attributes to remove and atomic
operations. -/
structure UpdateParams where
  table : Value
  key : Value
  values : Value
  remove : Value
  atomic : Value
  conditions : Value
  returnUpdated : Value

namespace GetParams

def request (p : GetParams) : Result Fields := do
  let key ← p.key.toMap
  let projection ← Projection.read p.properties
  return ([("TableName", p.table), ("Key", .map key)] : Fields)
    ++ (if p.consistentRead.truthy then [("ConsistentRead", .bool true)] else [] : Fields)
    ++ clauseFields projection "ProjectionExpression"

end GetParams

namespace CreateParams

def request (p : CreateParams) : Result Fields := do
  let item ← p.item.toMap
  let condition ← conditionClause p.conditions
  return ([("TableName", p.table), ("Item", .map item)] : Fields)
    ++ clauseFields condition "ConditionExpression"

end CreateParams

namespace DeleteParams

def request (p : DeleteParams) : Result Fields := do
  let key ← p.key.toMap
  let condition ← conditionClause p.conditions
  return ([("TableName", p.table), ("Key", .map key)] : Fields)
    ++ clauseFields condition "ConditionExpression"

end DeleteParams

namespace UpdateParams

def validate (p : UpdateParams) : Result Unit :=
  Update.validate p.key p.values p.remove p.atomic p.conditions

/-- The request of an update in which sets are made in a given way. -/
def requestWith (create : SetMaker) (p : UpdateParams) : Result Fields := do
  p.validate
  let condition ← conditionClause p.conditions
  let updateNames ← Update.names p.values p.remove p.atomic
  let names ← Placeholder.merge (updateNames :: (condition.map (·.names)).toList)
  let updateValues ← Update.valuesWith create p.values p.atomic
  let values ← Placeholder.merge (updateValues :: (condition.map (·.values)).toList)
  let key ← p.key.toMap
  let expression ← Update.expression p.values p.remove p.atomic
  return ([("TableName", p.table), ("Key", .map key), ("UpdateExpression", .text expression),
      ("ExpressionAttributeNames", .map names)] : Fields)
    ++ (if values.isEmpty then [] else [("ExpressionAttributeValues", .map values)] : Fields)
    ++ (condition.map fun c => (("ConditionExpression" : Text), Value.text c.expression)).toList
    ++ (if p.returnUpdated.truthy then [("ReturnValues", .text "UPDATED_NEW")] else [] : Fields)

def request (shape : SetShape) (p : UpdateParams) : Result Fields := p.requestWith shape.build

end UpdateParams

end TableGateway
