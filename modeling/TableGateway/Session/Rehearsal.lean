import TableGateway.Session.World
import TableGateway.Value.Comparison
import TableGateway.Value.Reading

/-!
# Rehearsals

A rehearsal stands in for the store: a queue of expected calls, each with a check of the request and a
scripted answer. Every call is recorded and uses up the oldest expectation, whether it meets it or
not; a call when none is left is a fault. A check of a map looks only at the keys that it names.
-/
namespace TableGateway.Rehearsal

/-- What a request is checked against. -/
inductive Check where
  | none
  | fields (expected : Value)
  /-- A test of the caller's own, with the fault of a request that does not stand it. -/
  | test (fault? : Fields → Option Fault)

/-- A test for fields that a request must not have. -/
def Check.lacks (names : List Text) : Check :=
  .test fun request =>
    (names.find? (Entries.has request)).map fun n => .unexpected ("unexpected field " ++ n)

/-- What a rehearsed call is answered. -/
inductive Reply where
  | none
  | fixed (reply : Value)
  | computed (reply : Fields → Result Value)

/-- A call that is to come, with its check, its answer and the fault that it ends in. -/
structure Expectation where
  method : Text
  check : Check
  reply : Reply
  fault : Option Fault

/-- The calls that are to come and those that came. -/
structure State where
  queue : List Expectation
  calls : List (Text × Fields)

def State.empty : State := ⟨[], []⟩

def State.expect (s : State) (e : Expectation) : State := { s with queue := s.queue ++ [e] }

def State.callsTo (s : State) (method : Text) : List Fields :=
  (s.calls.filter fun c => c.1 = method).map Prod.snd

def indexed (path : Text) (i : Nat) : Text := path ++ "[" ++ toString i ++ "]"

/-- Members of a list or a tuple. -/
def row? : Value → Option (List Value)
  | .list vs | .tuple vs => some vs
  | _ => none

def otherLength (path : Text) (expected actual : Nat) : Fault :=
  .unexpected (path ++ ": expected " ++ toString expected ++ " items, got " ++ toString actual)

/-- The fault of a value that is not the one expected, or that cannot be told from it. -/
def difference? (path : Text) (expected actual : Value) : Option Fault :=
  match expected.equals actual with
  | .error f => some f
  | .ok true => none
  | .ok false =>
    some (.unexpected (path ++ ": expected " ++ expected.literal ++ ", got " ++ actual.literal))

mutual

/-- The first difference of a value from what is expected of it. -/
def mismatch? (path : Text) : (expected actual : Value) → Option Fault
  | .anything, _ => none
  | .map es, actual =>
    match actual with
    | .map fs => mismatchEntries? path es fs
    | v => some (.unexpected (path ++ ": expected dict, got " ++ v.typeName))
  | .list xs, actual | .tuple xs, actual =>
    match row? actual with
    | some ys =>
      if xs.length = ys.length then mismatchRow? path 0 xs ys
      else some (otherLength path xs.length ys.length)
    | none => some (.unexpected (path ++ ": expected list, got " ++ actual.typeName))
  | expected, actual => difference? path expected actual

def mismatchEntries? (path : Text) : List (Text × Value) → Fields → Option Fault
  | [], _ => none
  | (k, v) :: es, fs =>
    match Entries.get? fs k with
    | none => some (.unexpected (path ++ ": missing key " ++ Text.quoted k))
    | some w => (mismatch? (path ++ "." ++ k) v w).or (mismatchEntries? path es fs)

def mismatchRow? (path : Text) (i : Nat) : List Value → List Value → Option Fault
  | x :: xs, y :: ys => (mismatch? (indexed path i) x y).or (mismatchRow? path (i + 1) xs ys)
  | _, _ => none

end

def Check.fault? (c : Check) (method : Text) (request : Fields) : Option Fault :=
  match c with
  | .none => Option.none
  | .fields v => mismatch? method v (.map request)
  | .test fault? => fault? request

/-- The answer that hands back the keys of a request as items. -/
def echoed (request : Fields) : Result Value := do
  let tables ← (Value.entry request "RequestItems").entries
  let items ← tables.mapM fun e => do
    let part ← e.2.entries
    match Entries.get? part "Keys" with
    | some keys => .ok (e.1, keys)
    | none => .error .noSuchKey
  return .map [("Responses", .map items)]

/-- Every key that was asked for, as if it were the item. -/
def Reply.echo : Reply := .computed echoed

def Reply.answer (r : Reply) (request : Fields) : Result Fields :=
  match r with
  | .none => .ok []
  | .fixed v => if v.truthy then v.toMap else .ok []
  | .computed reply => do (← reply request).toMap

/-- The answer to a call that has met an expectation. -/
def Expectation.answer (e : Expectation) (method : Text) (request : Fields) : Result Fields :=
  if e.method ≠ method then
    .error (.unexpected ("expected " ++ e.method ++ ", got " ++ method))
  else match e.check.fault? method request, e.fault with
    | some f, _ => .error f
    | none, some f => .error f
    | none, none => e.reply.answer request

/-- A call is kept before it is compared, and takes the first expectation with it in any case. -/
def State.handle (s : State) (method : Text) (request : Fields) : Result Fields × State :=
  let calls := s.calls ++ [(method, request)]
  match s.queue with
  | [] => (.error (.unexpected ("unexpected call: " ++ method)), ⟨[], calls⟩)
  | e :: rest => (e.answer method request, ⟨rest, calls⟩)

def client : Client State where
  answer c s := s.handle c.method.name c.request

def Check.literal : Check → Text
  | .none => "None"
  | .fields v => v.literal
  | .test _ => "<check>"

def Reply.literal : Reply → Text
  | .none => "None"
  | .fixed v => v.literal
  | .computed _ => "<echo>"

def faultLiteral : Option Fault → Text
  | none => "None"
  | some f =>
    let kind := match f with
      | .store .. => "ClientError"
      | _ => "RuntimeError"
    kind ++ "(" ++ Text.quoted (f.message?.getD "") ++ ")"

def Expectation.literal (e : Expectation) : Text :=
  "ExpectedCall(method=" ++ Text.quoted e.method ++ ", expected=" ++ e.check.literal
    ++ ", response=" ++ e.reply.literal ++ ", error=" ++ faultLiteral e.fault ++ ")"

/-- Have all expected calls come? -/
def State.assertDone (s : State) : Result Unit :=
  if s.queue.isEmpty then .ok ()
  else .error (.unexpected ("pending expected calls: ["
    ++ Text.intercalate ", " (s.queue.map Expectation.literal) ++ "]"))

end TableGateway.Rehearsal
