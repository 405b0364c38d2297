import TableGateway.Session.Marshalling
import TableGateway.Session.World
import TableGateway.Update.Atomic

/-!
# Executors

An executor sends calls to a client of one of two targets: one that takes values as they are, and a
low-level one for which they are marshalled. It may log each call before it is sent.
-/
namespace TableGateway

/-- The two shapes in which a client takes its values. -/
inductive Target where
  | resource
  | client
  deriving DecidableEq, Repr, Inhabited

namespace Target

def name : Target → Text
  | resource => "resource"
  | client => "client"

def read (v : Value) : Result Target :=
  match v with
  | .text "resource" => .ok resource
  | .text "client" => .ok client
  | _ => refuse (.unknownTarget v)

end Target

/-- A client with its shape; `logCalls` says whether calls are logged. -/
structure Executor (σ : Type) where
  client : Client σ
  target : Target
  logCalls : Value

namespace Executor

variable {σ : Type}

def logCall (x : Executor σ) (c : Call) : Session σ Unit :=
  if x.logCalls.truthy then
    Session.log .info .executor
      ("dynamodb " ++ c.method.name ++ " params: " ++ (Value.map c.request).literal)
  else pure ()

/-- A client of the low-level shape is asked in attribute values and answers in them. -/
def send (x : Executor σ) (c : Call) : Session σ Fields :=
  match x.target with
  | .resource => Session.ask x.client c
  | .client => do
    let request ← Session.lift (Marshalling.request c.request)
    let reply ← Session.ask x.client ⟨c.method, request⟩
    Session.lift (Marshalling.answer reply)

def call (x : Executor σ) (method : Method) (request : Fields) : Session σ Fields := do
  x.logCall ⟨method, request⟩
  x.send ⟨method, request⟩

/-- The set of the given members, as it is handed to the store. -/
def createSet (items : Value) : Result Value := do SetShape.set.build (← items.elements)

/-- The names of what an executor was made with, which is no call. -/
def settings : List Text := ["target", "log_call_params"]

/-- What an executor does under a name: a call with the fields of a request, or a set of items. -/
def perform (x : Executor σ) (name : Text) (request : Value) : Session σ Value := do
  if name = "create_set" then
    match ← Session.lift (requestFields request) with
    | [("items", items)] => Session.lift (createSet items)
    | _ => Session.fail .wrongType
  else if settings.contains name then Session.fail .wrongType
  else
    let c ← Session.lift (Call.named name request)
    return .map (← x.call c.method c.request)

end Executor

end TableGateway
