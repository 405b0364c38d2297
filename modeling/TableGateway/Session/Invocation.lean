import TableGateway.Session.Provider

/-!
# Calls by name

An operation of the provider is called by its name with arguments in a row and by name. Each has a
form: what has to be given, what may also stand in the row, and what may only be named.
-/
namespace TableGateway.Invocation

/-- The arguments of an operation: those by place, of which some may be left out, and those by
name. -/
structure Form where
  row : List Text
  rowOptional : Fields
  named : Fields

/-- The arguments of a call by their names, every one of the form among them. -/
def Form.fill (f : Form) (args : List Value) (named : Fields) : Result Fields :=
  let places := f.row ++ Entries.keys f.rowOptional
  let placed := places.zip args
  let known := places ++ Entries.keys f.named
  let twice := named.any fun e => Entries.has placed e.1
  if places.length < args.length || twice || !named.all fun e => known.contains e.1 then
    .error .wrongType
  else
    let given := placed ++ named
    if f.row.all (Entries.has given) then .ok (Entries.overlay (f.rowOptional ++ f.named) given)
    else .error .wrongType

/-- What an operation gives back. -/
inductive Outcome where
  | value (v : Value)
  | page (p : Page)

/-- The operations that callers know by name. -/
inductive Operation where
  | get
  | create
  | delete
  | update
  | list
  | listAll
  | query
  | batchGet
  | transaction
  | transactionParams
  | createSet

namespace Operation

def ofName? : Text → Option Operation
  | "get" => some get
  | "create" => some create
  | "delete" => some delete
  | "update" => some update
  | "list" => some list
  | "list_all" => some listAll
  | "query" => some query
  | "batch_get" => some batchGet
  | "transaction" => some transaction
  | "to_transaction_params" => some transactionParams
  | "create_set" => some createSet
  | _ => none

def form : Operation → Form
  | get =>
    ⟨["table", "key"], [], [("consistent_read", .bool false), ("properties_to_get", .null)]⟩
  | create => ⟨["table", "item"], [], [("conditions", .null)]⟩
  | delete => ⟨["table", "key"], [], [("conditions", .null)]⟩
  | update =>
    ⟨["table", "key"], [],
      [("values", .null), ("remove", .null), ("atomic_operations", .null), ("conditions", .null),
        ("return_updated_properties", .bool false)]⟩
  | list | listAll => ⟨["table"], [("options", .null)], []⟩
  | query =>
    ⟨["table", "partition_key"], [],
      [("range_key", .null), ("index", .null), ("retrieve_order", .text "ASC"),
        ("pagination_token", .null), ("limit", .null), ("full_retrieval", .bool true),
        ("filters", .null)]⟩
  | batchGet =>
    ⟨["table", "keys"], [],
      [("consistent_read", .bool false), ("properties_to_retrieve", .null),
        ("max_retries", .int BatchGet.defaultMaxRetries), ("throw_on_unprocessed", .bool false)]⟩
  | transaction => ⟨["configs"], [], []⟩
  | transactionParams => ⟨["items", "generator"], [], []⟩
  | createSet => ⟨["items"], [], []⟩

end Operation

def queryParams (a : Fields) : QueryParams where
  table := Value.entry a "table"
  partitionKey := Value.entry a "partition_key"
  rangeKey := Value.entry a "range_key"
  index := Value.entry a "index"
  order := Value.entry a "retrieve_order"
  token := Value.entry a "pagination_token"
  limit := Value.entry a "limit"
  fullRetrieval := Value.entry a "full_retrieval"
  filters := Value.entry a "filters"

def updateParams (a : Fields) : UpdateParams where
  table := Value.entry a "table"
  key := Value.entry a "key"
  values := Value.entry a "values"
  remove := Value.entry a "remove"
  atomic := Value.entry a "atomic_operations"
  conditions := Value.entry a "conditions"
  returnUpdated := Value.entry a "return_updated_properties"

def batchGetParams (a : Fields) : BatchGetParams where
  table := Value.entry a "table"
  keys := Value.entry a "keys"
  consistentRead := Value.entry a "consistent_read"
  properties := Value.entry a "properties_to_retrieve"
  maxRetries := Value.entry a "max_retries"
  throwOnUnprocessed := Value.entry a "throw_on_unprocessed"

/-- The actions that items are turned into. No value is a generator, so there may be no items. -/
def generated (items : Value) : Result (List Value) := do
  if (← items.elements).isEmpty then return [] else .error .wrongType

variable {σ : Type}

/-- The operation done with arguments that are all there. -/
def perform (d : Provider σ) (rounds : Nat) (o : Operation) (a : Fields) : Session σ Outcome :=
  let arg := Value.entry a
  match o with
  | .get =>
    .value <$> d.get ⟨arg "table", arg "key", arg "consistent_read", arg "properties_to_get"⟩
  | .create => .value <$> d.create ⟨arg "table", arg "item", arg "conditions"⟩
  | .delete => .value <$> d.delete ⟨arg "table", arg "key", arg "conditions"⟩
  | .update => .value <$> d.update (updateParams a)
  | .list => .page <$> d.list (arg "table") (arg "options")
  | .listAll => (.value ∘ .list) <$> d.listAll rounds (arg "table") (arg "options")
  | .query => .page <$> d.query rounds (queryParams a)
  | .batchGet => (.value ∘ .list) <$> d.batchGet (batchGetParams a)
  | .transaction => .value <$> d.transact (arg "configs")
  | .transactionParams => (.value ∘ .list) <$> Session.lift (generated (arg "items"))
  | .createSet => .value <$> Session.lift (Executor.createSet (arg "items"))

/-- A call by name. There is no operation but those listed; the executor is a part that is no call. -/
def call (d : Provider σ) (rounds : Nat) (name : Text) (args : List Value) (named : Fields) :
    Session σ Outcome :=
  match Operation.ofName? name with
  | none => Session.fail (if name = "executor" then .wrongType else .noSuchPart)
  | some o => do perform d rounds o (← Session.lift (o.form.fill args named))

/-- A transaction of the actions that items were turned into. -/
def transactCollected (d : Provider σ) (rows : List Value) : Session σ Outcome :=
  .value <$> d.transact (.list (Transaction.collect rows))

end TableGateway.Invocation
