import TableGateway.Fault

/-!
# Sessions

A session talks to a client, which is a state and an answer to each call, and leaves behind the waits
it made and the lines it logged. A session that fails keeps what happened before. Time, threads and
the network are not part of it.
-/
namespace TableGateway

/-- The calls that the store understands. -/
inductive Method where
  | getItem
  | putItem
  | updateItem
  | deleteItem
  | query
  | scan
  | batchGetItem
  | transactWriteItems
  deriving DecidableEq, Repr, Inhabited

namespace Method

def name : Method → Text
  | getItem => "get_item"
  | putItem => "put_item"
  | updateItem => "update_item"
  | deleteItem => "delete_item"
  | query => "query"
  | scan => "scan"
  | batchGetItem => "batch_get_item"
  | transactWriteItems => "transact_write_items"

def all : List Method :=
  [getItem, putItem, updateItem, deleteItem, query, scan, batchGetItem, transactWriteItems]

def ofName? (s : Text) : Option Method := all.find? fun m => m.name = s

end Method

/-- One call of the store: its method and the fields of the request. -/
structure Call where
  method : Method
  request : Fields
  deriving Repr, Inhabited

/-- The name by which whoever is called knows itself, which no field of a request can have. -/
def receiverName : Text := "self"

/-- The fields of a request out of a value, for a call in which they are the named arguments. -/
def requestFields (request : Value) : Result Fields :=
  match request with
  | .map es => if Entries.has es receiverName then .error .wrongType else .ok es
  | _ => .error .wrongType

/-- A call by the name of its method. -/
def Call.named (name : Text) (request : Value) : Result Call :=
  match Method.ofName? name with
  | some method => do return ⟨method, ← requestFields request⟩
  | none => .error .noSuchPart

/-- Whatever answers calls, with a state of its own. -/
structure Client (σ : Type) where
  answer : Call → σ → Result Fields × σ

inductive Level where
  | debug
  | info
  | warning
  deriving DecidableEq, Repr

def Level.name : Level → Text
  | .debug => "DEBUG"
  | .info => "INFO"
  | .warning => "WARNING"

/-- The part of the gateway that logs a line. -/
inductive Source where
  | batch
  | executor
  | provider
  deriving DecidableEq, Repr

def Source.name : Source → Text
  | .batch => "dynamodb_provider.batch"
  | .executor => "dynamodb_provider.executor"
  | .provider => "dynamodb_provider.provider"

/-- A line as it is logged, with the part that logs it. -/
structure LogLine where
  level : Level
  source : Source
  message : Text
  deriving DecidableEq, Repr

def LogLine.text (l : LogLine) : Text := l.level.name ++ ":" ++ l.source.name ++ ":" ++ l.message

/-- The client as it stands, the waits that were made and the lines that were logged. -/
structure World (σ : Type) where
  client : σ
  waits : List Binary64
  log : List LogLine

/-- A session leaves a world behind, whether it finds something or fails. -/
def Session (σ α : Type) : Type := World σ → Result α × World σ

namespace Session

variable {σ α β : Type}

/-- A session that fails keeps what happened before. -/
def andThen (x : Session σ α) (f : α → Session σ β) : Session σ β := fun w =>
  match x w with
  | (.ok a, w') => f a w'
  | (.error e, w') => (.error e, w')

instance : Monad (Session σ) where
  pure a := fun w => (.ok a, w)
  bind := andThen

def lift (r : Result α) : Session σ α := fun w => (r, w)

def fail (f : Fault) : Session σ α := fun w => (.error f, w)

/-- The outcome of a session as a value; the session around it goes on. -/
def outcome (x : Session σ α) : Session σ (Result α) := fun w =>
  let (r, w') := x w
  (.ok r, w')

/-- A call changes the client and nothing else of the world. -/
def ask (client : Client σ) (call : Call) : Session σ Fields := fun w =>
  let (r, s) := client.answer call w.client
  (r, { w with client := s })

def log (level : Level) (source : Source) (message : Text) : Session σ Unit := fun w =>
  (.ok (), { w with log := w.log ++ [⟨level, source, message⟩] })

def wait (seconds : Binary64) : Session σ Unit := fun w =>
  (.ok (), { w with waits := w.waits ++ [seconds] })

@[simp] theorem pure_apply (a : α) (w : World σ) : (pure a : Session σ α) w = (.ok a, w) := rfl

@[simp] theorem bind_apply (x : Session σ α) (f : α → Session σ β) (w : World σ) :
    (x >>= f) w = match x w with
      | (.ok a, w') => f a w'
      | (.error e, w') => (.error e, w') := rfl

@[simp] theorem lift_apply (r : Result α) (w : World σ) : (lift r : Session σ α) w = (r, w) := rfl

@[simp] theorem fail_apply (f : Fault) (w : World σ) :
    (fail f : Session σ α) w = (.error f, w) := rfl

end Session

end TableGateway
