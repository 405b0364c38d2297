import TableGateway.Session.World
import TableGateway.Value.Reading
import TableGateway.Value.Same

/-!
# A store that follows a plan

For trying out batches: the plan says which keys the store leaves unprocessed and how often, which it
does not have, and at which request for a key it fails. The store counts the requests for each key and
keeps every request.
-/
namespace TableGateway.Plan

/-- What the store is to do with the keys that it is asked for. -/
structure Script where
  /-- Keys left unprocessed the first so many times, always where the number is below zero. -/
  stuck : List (Value × Int)
  missing : List Value
  /-- Keys at whose n-th request the store fails with a message. -/
  failing : List (Value × Int × Text)

/-- A request as the store keeps it: the table, the keys asked for, and the other fields. -/
structure Request where
  table : Text
  ids : List Value
  rest : Fields

/-- How often each key was asked for, and every request so far. -/
structure State where
  counts : List (Value × Nat)
  requests : List Request

def State.empty : State := ⟨[], []⟩

/-- A key goes by its id, or stands for itself where it is no map. -/
def idOf (key : Value) : Value :=
  match key with
  | .map es => Value.entry es "id"
  | v => v

def countOf (counts : List (Value × Nat)) (id : Value) : Nat :=
  ((counts.find? fun e => e.1 == id).map Prod.snd).getD 0

def setCount (counts : List (Value × Nat)) (id : Value) (n : Nat) : List (Value × Nat) :=
  (id, n) :: counts.filter fun e => !(e.1 == id)

/-- The fault at the request for a key that the script names, counted from one. -/
def failure? (s : Script) (id : Value) (count : Nat) : Option Fault :=
  (s.failing.find? fun f => f.1 == id && f.2.1 = (count : Int)).map fun f => .scripted f.2.2

/-- Is a key left unprocessed at this request for it? -/
def isStuck (s : Script) (id : Value) (count : Nat) : Bool :=
  match s.stuck.find? fun e => e.1 == id with
  | some (_, n) => n < 0 || count ≤ n
  | none => false

/-- Counts the keys of a request in order, up to one at which the store fails. -/
def countAll (s : Script) (counts : List (Value × Nat)) :
    List Value → List (Value × Nat) × Option Fault
  | [] => (counts, none)
  | id :: ids =>
    let n := countOf counts id + 1
    let counts := setCount counts id n
    match failure? s id n with
    | some f => (counts, some f)
    | none => countAll s counts ids

def foundItem (id : Value) : Value := .map [("id", id), ("found", .bool true)]

def keyOf (id : Value) : Value := .map [("id", id)]

/-- The answer to a request: stuck keys are left over, missing ones are passed by. -/
def reply (s : Script) (counts : List (Value × Nat)) (table : Text) (ids : List Value) : Fields :=
  let isStuck (id : Value) : Bool := isStuck s id (countOf counts id)
  let left := ids.filter isStuck
  let done := ids.filter fun id => !isStuck id && !s.missing.any (· == id)
  let unprocessed : Fields :=
    if left.isEmpty then []
    else [("UnprocessedKeys", .map [(table, .map [("Keys", .list (left.map keyOf))])])]
  ("Responses", .map [(table, .list (done.map foundItem))]) :: unprocessed

/-- The request is kept whatever comes of it, and so are the counts up to the key that fails. -/
def answerTable (s : Script) (st : State) (table : Text) (part : Fields) : Result Fields × State :=
  match (Value.entry part "Keys").elements with
  | .error f => (.error f, st)
  | .ok keys =>
    let ids := keys.map idOf
    let requests := st.requests ++ [⟨table, ids, Entries.erase part "Keys"⟩]
    match countAll s st.counts ids with
    | (counts, some f) => (.error f, ⟨counts, requests⟩)
    | (counts, none) => (.ok (reply s counts table ids), ⟨counts, requests⟩)

/-- The store as a client, for requests of one table. -/
def client (s : Script) : Client State where
  answer c st :=
    match Entries.get? c.request "RequestItems" with
    | some (.map [(table, .map part)]) => answerTable s st table part
    | _ => (.error .wrongType, st)

end TableGateway.Plan
