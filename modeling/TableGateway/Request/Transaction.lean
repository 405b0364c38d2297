import TableGateway.Request.Item

/-!
# Transactions

A transaction is a row of at most a hundred actions, each in an envelope that names its kind. Missing
actions are passed over. A validation is a condition on an item that is not written.
-/
namespace TableGateway

/-- A condition on an item that is not written. -/
structure ValidateParams where
  table : Value
  key : Value
  conditions : Value

namespace ValidateParams

def request (p : ValidateParams) : Result Fields := do
  let key ← p.key.toMap
  let condition ← conditionClause p.conditions
  return ([("TableName", p.table), ("Key", .map key)] : Fields)
    ++ clauseFields condition "ConditionExpression"

end ValidateParams

inductive TransactAction where
  | create (p : CreateParams)
  | update (p : UpdateParams)
  | delete (p : DeleteParams)
  | validate (p : ValidateParams)

namespace TransactAction

/-- An action by the record that it is; nothing else is one. -/
def ofValue? : Value → Option TransactAction
  | .record .create [table, item, conditions] => some (.create ⟨table, item, conditions⟩)
  | .record .update [table, key, values, remove, atomic, conditions, returnUpdated] =>
    some (.update ⟨table, key, values, remove, atomic, conditions, returnUpdated⟩)
  | .record .delete [table, key, conditions] => some (.delete ⟨table, key, conditions⟩)
  | .record .validate [table, key, conditions] => some (.validate ⟨table, key, conditions⟩)
  | _ => none

/-- The action in its envelope, with sets made in a given way. An update in a transaction returns
nothing. -/
def envelopeWith (make : SetMaker) : TransactAction → Result Value
  | create p => do return .map [("Put", .map (← p.request))]
  | update p => do return .map [("Update", .map (Entries.erase (← p.requestWith make) "ReturnValues"))]
  | delete p => do return .map [("Delete", .map (← p.request))]
  | validate p => do return .map [("ConditionCheck", .map (← p.request))]

def envelope (shape : SetShape) : TransactAction → Result Value := envelopeWith shape.build

def envelopeOf (make : SetMaker) (v : Value) : Result Value :=
  match ofValue? v with
  | some a => a.envelopeWith make
  | none => refuse (.unknownAction v.typeName)

end TransactAction

namespace Transaction

/-- The store takes no more actions at a time. -/
def maxActions : Nat := 100

/-- Missing actions are passed over before the rest is counted. -/
def items (make : SetMaker) (actions : List Value) : Result (List Value) :=
  let given := actions.filter fun v => !v.isNull
  if maxActions < given.length then
    .error (.transactionTooLarge (.int given.length) (.int maxActions))
  else given.mapM (TransactAction.envelopeOf make)

/-- The items of a transaction in which sets are made in a given way. -/
def buildWith (make : SetMaker) (actions : Value) : Result (List Value) := do
  items make (← actions.elements)

def build (shape : SetShape) (actions : Value) : Result (List Value) := buildWith shape.build actions

/-- The actions that one item was turned into: a row of them, one, or none. -/
def generated : Value → List Value
  | .null => []
  | .list vs | .tuple vs => vs.filter fun v => !v.isNull
  | v => [v]

def collect (rows : List Value) : List Value := rows.flatMap generated

end Transaction

end TableGateway
