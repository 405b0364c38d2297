import TableGateway.Number.Limit
import TableGateway.Request.Query
import TableGateway.Request.Transaction
import TableGateway.Session.BatchGet
import TableGateway.Session.Executor

/-!
# The provider

One operation of the store for each call of the caller. Listing all items and querying follow the
store from answer to answer; `rounds` bounds the number of requests of such a run, and a run that
would need more ends as cut short.
-/
namespace TableGateway

/-- Items with the token after which to go on, if there are more. -/
structure Page where
  items : List Value
  token : Option Text

/-- The operations on tables, by way of an executor. -/
structure Provider (σ : Type) where
  executor : Executor σ
  waits : Bool
  maxWorkers : Value

namespace Provider

variable {σ : Type}

def get (d : Provider σ) (p : GetParams) : Session σ Value := do
  let request ← Session.lift p.request
  return Value.entry (← d.executor.call .getItem request) "Item"

def create (d : Provider σ) (p : CreateParams) : Session σ Value := do
  let request ← Session.lift p.request
  let _ ← d.executor.call .putItem request
  return .map (← Session.lift p.item.toMap)

def delete (d : Provider σ) (p : DeleteParams) : Session σ Value := do
  let request ← Session.lift p.request
  let _ ← d.executor.call .deleteItem request
  return .null

def update (d : Provider σ) (p : UpdateParams) : Session σ Value := do
  let request ← Session.lift (p.request .set)
  let reply ← d.executor.call .updateItem request
  return if p.returnUpdated.truthy then Value.entry reply "Attributes" else .null

/-- The items of an answer. -/
def itemsOf (reply : Fields) : Result (List Value) :=
  ((Entries.get? reply "Items").getD (.list [])).elements

/-- The key after which the answer stops, null where it is the last. -/
def lastKeyOf (reply : Fields) : Value := Value.entry reply "LastEvaluatedKey"

/-- One page of a table, with the token of the next. -/
def list (d : Provider σ) (table options : Value) : Session σ Page := do
  let request ← Session.lift (do (← ListOptions.ofRecord options).request table)
  let reply ← d.executor.call .scan request
  let items ← Session.lift (itemsOf reply)
  return ⟨items, ← Session.lift (Token.encode (lastKeyOf reply))⟩

/-- The same request with another key after which to go on. -/
def continued (request : Fields) (key : Value) : Fields :=
  Entries.put request "ExclusiveStartKey" key

/-- Pages are asked for until an answer names no last key; `rounds` bounds them. -/
def listFrom (d : Provider σ) : (rounds : Nat) → (request : Fields) → (items : List Value) →
    Session σ (List Value)
  | 0, _, _ => Session.fail .cutShort
  | rounds + 1, request, items => do
    let reply ← d.executor.call .scan request
    let items := items ++ (← Session.lift (itemsOf reply))
    let key := lastKeyOf reply
    if key.truthy then listFrom d rounds (continued request key) items else return items

def listAll (d : Provider σ) (rounds : Nat) (table options : Value) : Session σ (List Value) := do
  let request ← Session.lift (do (← ListOptions.ofRecord options).request table)
  listFrom d rounds request []

/-- The request with a limit of its own: what is still wanted, and at least one. -/
def limited (limit : Value) (count : Nat) (request : Fields) : Result Fields :=
  match limit.number? with
  | some n =>
    match n.left count with
    | .ok m => .ok (Entries.put request "Limit" (.number m))
    | .error s => .error (.unstorable s)
  | none => .ok request

/-- Are so many items as many as were asked for? -/
def reached (limit : Value) (count : Nat) : Bool :=
  match limit.number? with
  | some n => (n.order? (.int count)).any (· ≠ .gt)
  | none => false

/-- Does a query end after an answer that reports a last key? -/
def queryEnds (limit fullRetrieval : Value) (count : Nat) : Bool :=
  if limit.isNull then !fullRetrieval.truthy else reached limit count

/-- Pages are asked for until the limit is reached or there are no more; `rounds` bounds them. -/
def queryFrom (d : Provider σ) (limit fullRetrieval : Value) : (rounds : Nat) →
    (request : Fields) → (items : List Value) → Session σ (List Value × Value)
  | 0, _, _ => Session.fail .cutShort
  | rounds + 1, request, items => do
    let request ← Session.lift (limited limit items.length request)
    let reply ← d.executor.call .query request
    let items := items ++ (← Session.lift (itemsOf reply))
    let key := lastKeyOf reply
    if key.truthy && !queryEnds limit fullRetrieval items.length then
      queryFrom d limit fullRetrieval rounds (continued request key) items
    else return (items, key)

/-- The items found, with the token to go on from. -/
def query (d : Provider σ) (rounds : Nat) (p : QueryParams) : Session σ Page := do
  Session.lift p.check
  let request ← Session.lift p.request
  let (items, key) ← queryFrom d p.limit p.fullRetrieval rounds request []
  return ⟨items, ← Session.lift (Token.encode key)⟩

def batchGet (d : Provider σ) (p : BatchGetParams) : Session σ (List Value) :=
  BatchGet.run ⟨d.executor.call .batchGetItem, d.waits⟩ d.maxWorkers p

def reasonsLine (reasons : Value) : Text := "transaction cancelled, reasons: " ++ reasons.literal

/-- Logs why the store cancelled a transaction, where calls are logged. -/
def logReasons (d : Provider σ) (f : Fault) : Session σ Unit :=
  match f with
  | .store _ _ _ reasons =>
    if d.executor.logCalls.truthy then Session.log .info .provider (reasonsLine reasons) else pure ()
  | _ => pure ()

/-- A transaction without actions makes no call. The reasons of a cancelled one are logged, if
calls are. -/
def transact (d : Provider σ) (actions : Value) : Session σ Value := do
  let items ← Session.lift (Transaction.build .set actions)
  if items.isEmpty then
    Session.log .debug .provider "empty transaction resolved without a call"
    return .null
  match ← Session.outcome (d.executor.call .transactWriteItems [("TransactItems", .list items)]) with
  | .ok _ => return .null
  | .error f =>
    logReasons d f
    Session.fail f

end Provider

end TableGateway
