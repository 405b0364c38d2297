import TableGateway.Session.Executor
import TableGateway.Value.Comparison

/-!
# Clients that are shared

One client for each target and region: the first call for them creates it, later calls get the same
one whatever configuration they bring. A call that is refused, and one whose client cannot be
opened, leave the cache as it was.
-/
namespace TableGateway

/-- Time limits and retries of a client. -/
structure ClientConfig where
  connect : Value
  read : Value
  maxAttempts : Value

namespace ClientConfig

def seconds (n : Nat) : Value := .number (.float (Binary64.ofRatio false n 1))

def default : ClientConfig := ⟨seconds 1, seconds 3, .int 3⟩

def make (connect read maxAttempts : Value) : Result ClientConfig := do
  if ← maxAttempts.lessThan (.int 0) then .error .negativeAttempts
  return ⟨connect, read, maxAttempts⟩

def retries (c : ClientConfig) : Value :=
  .map [("max_attempts", c.maxAttempts), ("mode", .text "adaptive")]

/-- The names of what can be configured. -/
def names : List Text := ["connect_timeout", "read_timeout", "max_attempts"]

/-- A configuration from named values; the ones not named keep their defaults. -/
def ofNamed (named : Fields) : Result ClientConfig :=
  if named.all fun e => names.contains e.1 then
    make ((Entries.get? named "connect_timeout").getD default.connect)
      ((Entries.get? named "read_timeout").getD default.read)
      ((Entries.get? named "max_attempts").getD default.maxAttempts)
  else .error .wrongType

end ClientConfig

/-- What a client is asked for by, where nothing else is said one that takes values as they are. -/
structure ClientRequest where
  target : Value := .text Target.resource.name
  region : Value := .null
  config : Option ClientConfig := none

structure ExecutorRequest extends ClientRequest where
  logCalls : Value := .bool false

/-- How a client was created. -/
structure Creation where
  target : Target
  region : Value
  config : Option ClientConfig

/-- An executor on a shared client, which goes by its number. -/
structure SharedExecutor where
  client : Nat
  target : Target
  logCalls : Value

/-- The clients created so far, in order, and the number of the one for each target and region. -/
structure ClientCache where
  created : List Creation
  known : List ((Target × Value) × Nat)

namespace ClientCache

def empty : ClientCache := ⟨[], []⟩

def find? (c : ClientCache) (target : Target) (region : Value) : Option Nat :=
  (c.known.find? fun e => e.1.1 = target && e.1.2 == region).map Prod.snd

/-- Adds a client that has been opened; its number is that of the clients before it. -/
def add (c : ClientCache) (new : Creation) : Nat × ClientCache :=
  (c.created.length,
    ⟨c.created ++ [new], c.known ++ [((new.target, new.region), c.created.length)]⟩)

/-- The number of the client for a target and region. If there is none yet, one is opened, which
can fail. -/
def client (c : ClientCache) (opened : Creation → Result Unit) (target region : Value)
    (config : Option ClientConfig) : Result Nat × ClientCache :=
  match Target.read target with
  | .error f => (.error f, c)
  | .ok t =>
    if region.hashable then
      match c.find? t region with
      | some n => (.ok n, c)
      | none =>
        let new : Creation := ⟨t, region, config⟩
        match opened new with
        | .error f => (.error f, c)
        | .ok () => (.ok (c.add new).1, (c.add new).2)
    else (.error .wrongType, c)

/-- An executor on the client that is asked for. It looks at the target once more, as it does with a
client from elsewhere. -/
def executor (c : ClientCache) (opened : Creation → Result Unit) (r : ExecutorRequest) :
    Result SharedExecutor × ClientCache :=
  let (found, c') := c.client opened r.target r.region r.config
  (do return ⟨← found, ← Target.read r.target, r.logCalls⟩, c')

/-- Forgets which clients there are; those created stay created. -/
def reset (c : ClientCache) : ClientCache := { c with known := [] }

end ClientCache

end TableGateway
