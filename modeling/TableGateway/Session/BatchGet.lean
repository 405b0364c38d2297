import TableGateway.Number.Limit
import TableGateway.Projection
import TableGateway.Session.Backoff
import TableGateway.Session.World

/-!
# Reading many keys

The keys are cut into pages of at most a hundred. Each page is asked for, and what the store leaves
unprocessed is asked for again after a wait, until nothing is left or the page has made as many
requests as it may. All pages run to their end; then the items follow in page order, or the fault of
the first page that failed.
-/
namespace TableGateway

structure BatchGetParams where
  table : Value
  keys : Value
  consistentRead : Value
  properties : Value
  maxRetries : Value
  throwOnUnprocessed : Value

namespace BatchGet

variable {σ : Type}

def maxKeys : Nat := 100

def defaultMaxRetries : Nat := 8

/-- Consecutive pieces of n members, the last one maybe shorter; n is at least one. -/
def chunks {α : Type} (n : Nat) : List α → List (List α)
  | [] => []
  | x :: xs => (x :: xs.take (n - 1)) :: chunks n (xs.drop (n - 1))
termination_by xs => xs.length
decreasing_by simp only [List.length_drop, List.length_cons]; omega

/-- The fields that every request of a page has beside its keys. -/
def baseFields (p : BatchGetParams) : Result Fields := do
  let projection ← Projection.read p.properties
  return ("ConsistentRead", p.consistentRead) :: clauseFields projection "ProjectionExpression"

def request (table : Text) (base : Fields) (keys : List Value) : Fields :=
  [("RequestItems", .map [(table, .map (base ++ [(("Keys" : Text), .list keys)]))])]

/-- The key under which a table's part stands in requests and answers. -/
def tableKey (table : Value) : Result Text :=
  if table.hashable then .ok table.display else .error .wrongType

/-- A table's part of a field of an answer, where both are there. -/
def tablePart (reply : Fields) (field table : Text) : Result (Option Value) :=
  match Entries.get? reply field with
  | none => .ok none
  | some v => do return Entries.get? (← v.entries) table

def found (table : Text) (reply : Fields) : Result (List Value) := do
  match ← tablePart reply "Responses" table with
  | none => return []
  | some v => v.elements

def unprocessed (table : Text) (reply : Fields) : Result (List Value) := do
  match ← tablePart reply "UnprocessedKeys" table with
  | none => return []
  | some v => (Value.entry (← v.entries) "Keys").elementsOrNone

def exhaustedLine (table : Text) (attempt left : Nat) : Text :=
  "batch_get on " ++ table ++ " exhausted " ++ toString attempt ++ " attempts with "
    ++ toString left ++ " unprocessed keys"

def retryLine (table : Text) (attempt left : Nat) : Text :=
  "batch_get on " ++ table ++ " retrying " ++ toString left ++ " unprocessed keys (attempt "
    ++ toString attempt ++ ")"

/-- Sends the requests of batches and may wait between them. -/
structure Sender (σ : Type) where
  send : Fields → Session σ Fields
  waits : Bool

def pause (sender : Sender σ) (attempt : Nat) : Session σ Unit :=
  if sender.waits then do Session.wait (← Session.lift (Backoff.seconds attempt)) else pure ()

/-- Where a page stands before a request: its number, the keys to ask for and the items so far. -/
structure Progress where
  attempt : Nat
  pending : List Value
  items : List Value

/-- Where a page stands after the answer to its request. -/
def Progress.after (table : Text) (reply : Fields) (s : Progress) : Result Progress := do
  let items ← found table reply
  let pending ← unprocessed table reply
  return ⟨s.attempt + 1, pending, s.items ++ items⟩

def Progress.start (keys : List Value) : Progress := ⟨1, keys, []⟩

/-- One page from where it stands; `left` more requests may follow the next one. -/
def page (sender : Sender σ) (p : BatchGetParams) (table : Text) (base : Fields) :
    (left : Nat) → Progress → Session σ (List Value)
  | left, s => do
    let reply ← sender.send (request table base s.pending)
    let s' ← Session.lift (s.after table reply)
    if s'.pending.isEmpty then return s'.items
    match left with
    | 0 =>
      Session.log .warning .batch (exhaustedLine table s.attempt s'.pending.length)
      if p.throwOnUnprocessed.truthy then Session.fail (.unprocessedKeys (.int s'.pending.length))
      else return s'.items
    | left + 1 =>
      Session.log .debug .batch (retryLine table s.attempt s'.pending.length)
      pause sender s.attempt
      page sender p table base left s'

def pages (sender : Sender σ) (p : BatchGetParams) (table : Text) (base : Fields) (left : Nat) :
    List (List Value) → Session σ (List (Result (List Value)))
  | [] => pure []
  | keys :: rest => do
    let r ← Session.outcome (page sender p table base left (.start keys))
    return r :: (← pages sender p table base left rest)

/-- The items of all pages, or the fault of the first page that has one. -/
def collect : List (Result (List Value)) → Result (List Value)
  | [] => .ok []
  | r :: rs => do
    let items ← r
    return items ++ (← collect rs)

/-- More requests than any page makes: after the last power of two that is a double there is no wait
that could come before another one. A page that does not wait is cut off here. -/
def unbounded : Nat := tenTo 9

/-- The number of requests that a page may make. -/
def budget (maxRetries : Value) : Nat :=
  (maxRetries.number?.map (Number.countUpTo unbounded)).getD unbounded

/-- The pieces of a row that is given as a value; each is a row of the same kind. -/
def chunkValue (size : Int) (items : Value) : Result (List Value) :=
  if size ≤ 0 then .error (.badValue (some "size must be > 0"))
  else
    let n := size.toNat
    match items with
    | .list vs => .ok ((chunks n vs).map .list)
    | .tuple vs => .ok ((chunks n vs).map .tuple)
    | .text s => .ok ((chunks n s.toList).map fun cs => .text (Text.ofList cs))
    | .blob b =>
      if b.wrapped then .error .wrongType
      else .ok ((chunks n b.bytes).map fun bs => .blob { b with bytes := bs })
    | .set _ [] | .map [] => .ok []
    | _ => .error .wrongType

def check (maxRetries maxWorkers : Value) : Result Unit := do
  if ← maxRetries.lessThan (.int 1) then refuse .tooFewAttempts
  if !maxWorkers.isNull then
    if ← maxWorkers.atMost (.int 0) then refuse .tooFewWorkers

def run (sender : Sender σ) (maxWorkers : Value) (p : BatchGetParams) : Session σ (List Value) := do
  Session.lift (check p.maxRetries maxWorkers)
  if !p.keys.truthy then return []
  let base ← Session.lift (baseFields p)
  let keys ← Session.lift p.keys.elements
  let table ← Session.lift (tableKey p.table)
  let outcomes ← pages sender p table base (budget p.maxRetries - 1) (chunks maxKeys keys)
  Session.lift (collect outcomes)

end BatchGet

end TableGateway
