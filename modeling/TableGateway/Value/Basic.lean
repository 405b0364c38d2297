import TableGateway.Entries
import TableGateway.Number.Basic

/-!
# Values

What callers and the store hand over: the attribute values proper, and the descriptions of
conditions, changes and requests, which are records with a fixed row of fields. A map has text keys
and keeps their order. A set has its members arranged by what they are, which no comparison sees.
Things of which nothing is known are told apart by a number; numbers that are none are not told apart.
-/
namespace TableGateway

/-- A row of bytes; `mutable` marks a row that can grow, `wrapped` one in the store's own wrapper. -/
structure Blob where
  bytes : List UInt8
  mutable : Bool
  wrapped : Bool
  deriving DecidableEq, Repr, Inhabited

/-- The descriptions that callers build, each a record with fields of its own. -/
inductive RecordKind where
  | condition
  | group
  | atomicOperation
  | rangeKey
  | partitionKey
  | get
  | create
  | update
  | delete
  | validate
  | listOptions
  deriving DecidableEq, Repr, Inhabited

namespace RecordKind

def typeName : RecordKind → Text
  | condition => "Condition"
  | group => "ConditionGroup"
  | atomicOperation => "AtomicOperation"
  | rangeKey => "RangeKeyCondition"
  | partitionKey => "PartitionKey"
  | get => "GetParams"
  | create => "CreateParams"
  | update => "UpdateParams"
  | delete => "DeleteParams"
  | validate => "ValidateParams"
  | listOptions => "ListOptions"

def fieldNames : RecordKind → List Text
  | condition => ["property", "operation", "value", "values", "low", "high", "join_as"]
  | group => ["conditions", "join_as"]
  | atomicOperation => ["property", "type", "value", "ref_property"]
  | rangeKey => ["name", "operation", "value", "low", "high"]
  | partitionKey => ["name", "value"]
  | get => ["table", "key", "consistent_read", "properties_to_get"]
  | create => ["table", "item", "conditions"]
  | update =>
    ["table", "key", "values", "remove", "atomic_operations", "conditions",
      "return_updated_properties"]
  | delete => ["table", "key", "conditions"]
  | validate => ["table", "key", "conditions"]
  | listOptions =>
    ["filters", "limit", "consistent_read", "properties_to_retrieve", "index", "segment",
      "total_segments", "pagination_token"]

end RecordKind

/-- Whatever a caller or the store can hand over. -/
inductive Value where
  | null
  | bool (b : Bool)
  | number (n : Number)
  | text (s : Text)
  | blob (b : Blob)
  | list (items : List Value)
  | tuple (items : List Value)
  | set (frozen : Bool) (items : List Value)
  | map (entries : List (Text × Value))
  /-- Matches whatever it is compared with by a rehearsed expectation. -/
  | anything
  /-- A thing of which nothing is known but which one it is. -/
  | object (which : Nat)
  | record (kind : RecordKind) (fields : List Value)
  deriving Repr, Inhabited

abbrev Fields := Entries Value

namespace Value

def int (n : Int) : Value := .number (.int n)

def bytes (bs : List UInt8) : Value := .blob ⟨bs, false, false⟩

/-- Bytes as the store hands them back. -/
def binary (bs : List UInt8) : Value := .blob ⟨bs, false, true⟩

def isNull : Value → Bool
  | .null => true
  | _ => false

def text? : Value → Option Text
  | .text s => some s
  | _ => none

/-- The number that a value counts as; a truth value counts as 0 or 1. -/
def number? : Value → Option Number
  | .bool b => some (.int (if b then 1 else 0))
  | .number n => some n
  | _ => none

/-- Is there something in it? False of null, false, zero and all that is empty. -/
def truthy : Value → Bool
  | .null => false
  | .bool b => b
  | .number n => !n.isZero
  | .text s => s ≠ ""
  | .blob b => b.wrapped || !b.bytes.isEmpty
  | .list xs | .tuple xs | .set _ xs => !xs.isEmpty
  | .map es => !es.isEmpty
  | .anything | .object _ | .record .. => true

/-- The value, or the other one where it is empty. -/
def orElse (v w : Value) : Value := if v.truthy then v else w

def typeName : Value → Text
  | .null => "NoneType"
  | .bool _ => "bool"
  | .number (.int _) => "int"
  | .number (.float _) => "float"
  | .number (.decimal _) => "Decimal"
  | .text _ => "str"
  | .blob b => if b.wrapped then "Binary" else if b.mutable then "bytearray" else "bytes"
  | .list _ => "list"
  | .tuple _ => "tuple"
  | .set frozen _ => if frozen then "frozenset" else "set"
  | .map _ => "dict"
  | .anything => "_AnySentinel"
  | .object _ => "object"
  | .record kind _ => kind.typeName

/-- A field of a record by its name. -/
def field? : Value → Text → Option Value
  | .record kind fields, name => Entries.get? (kind.fieldNames.zip fields) name
  | _, _ => none

/-- An entry of a map, null where there is none. -/
def entry (es : Fields) (key : Text) : Value := (Entries.get? es key).getD .null

/-- An entry of a map under its first name if that is there at all, else under its second. -/
def entryOr (es : Fields) (key second : Text) : Value :=
  (Entries.get? es key).getD (entry es second)

end Value

end TableGateway
