import TableGateway.Condition.Reading
import TableGateway.Request.Query
import TableGateway.Request.Transaction
import TableGateway.Update.Atomic

/-!
# Records

Records are made from named fields, some of which may be left out, or by a builder with arguments in a
row. A record that is made keeps the rules of its kind; the fault of one that breaks them is the first
that its rules name.
-/
namespace TableGateway.Description

/-- Fields that have to be named, and those that may be left out with what then stands there. -/
structure Form where
  required : List Text
  optional : Fields

def formOf : RecordKind → Form
  | .condition =>
    ⟨["property", "operation"],
      [("value", .null), ("values", .null), ("low", .null), ("high", .null),
        ("join_as", .text "and")]⟩
  | .group => ⟨["conditions"], [("join_as", .text "and")]⟩
  | .atomicOperation => ⟨["property", "type", "value"], [("ref_property", .null)]⟩
  | .rangeKey => ⟨["name", "operation"], [("value", .null), ("low", .null), ("high", .null)]⟩
  | .partitionKey => ⟨["name", "value"], []⟩
  | .get => ⟨["table", "key"], [("consistent_read", .bool false), ("properties_to_get", .null)]⟩
  | .create => ⟨["table", "item"], [("conditions", .null)]⟩
  | .update =>
    ⟨["table", "key"],
      [("values", .null), ("remove", .null), ("atomic_operations", .null), ("conditions", .null),
        ("return_updated_properties", .bool false)]⟩
  | .delete => ⟨["table", "key"], [("conditions", .null)]⟩
  | .validate => ⟨["table", "key", "conditions"], []⟩
  | .listOptions =>
    ⟨[], [("filters", .null), ("limit", .null), ("consistent_read", .bool false),
      ("properties_to_retrieve", .null), ("index", .null), ("segment", .null),
      ("total_segments", .null), ("pagination_token", .null)]⟩

/-- The fields of a form in their order, taken from named values. -/
def Form.fill (f : Form) (named : Fields) : Result (List Value) :=
  let known := f.required ++ Entries.keys f.optional
  if named.all fun e => known.contains e.1 then do
    let required ← f.required.mapM fun k =>
      match Entries.get? named k with
      | some v => .ok v
      | none => .error .wrongType
    return required ++ f.optional.map fun e => (Entries.get? named e.1).getD e.2
  else .error .wrongType

def condition (property operation value values low high join : Value) : Result Value :=
  Condition.toValue <$> Condition.ofFields property operation value values low high join

def group (members join : Value) : Result Value := do
  let j ← Condition.readJoin join
  return .record .group [.tuple (← members.elements), .text j.name]

def validation (table key conditions : Value) : Result Value :=
  if conditions.truthy then .ok (.record .validate [table, key, conditions])
  else refuse .nothingToValidate

/-- A record of a kind from its fields in order. -/
def make (kind : RecordKind) (fields : List Value) : Result Value :=
  match kind, fields with
  | .condition, [property, operation, value, values, low, high, join] =>
    condition property operation value values low high join
  | .group, [members, join] => group members join
  | .atomicOperation, [property, type, value, source] =>
    AtomicOperation.toValue <$> AtomicOperation.ofFields property type value source
  | .rangeKey, [name, operation, value, low, high] =>
    RangeKey.toValue <$> RangeKey.ofFields name operation value low high
  | .validate, [table, key, conditions] => validation table key conditions
  | .listOptions, fields => do
    (← ListOptions.ofRecord (.record .listOptions fields)).check
    return .record .listOptions fields
  | kind, fields => .ok (.record kind fields)

def ofNamed (kind : RecordKind) (named : Fields) : Result Value := do
  make kind (← (formOf kind).fill named)

/-- What the builders of conditions build, by their names. -/
def builtTest? : Text → Option Operation
  | "eq" => some .equal
  | "ne" => some .notEqual
  | "lt" => some .lowerThan
  | "lte" => some .lowerOrEqualThan
  | "gt" => some .biggerThan
  | "gte" => some .biggerOrEqualThan
  | "begins_with" => some .beginsWith
  | "contains" => some .contains
  | "not_contains" => some .notContains
  | "exists" => some .exists
  | "not_exists" => some .notExists
  | "in_" => some .oneOf
  | "not_in" => some .noneOf
  | "between" => some .between
  | _ => none

/-- A condition by the name of its builder. -/
def buildCondition (builder : Text) (args : List Value) (join : Value) : Result Value :=
  match builtTest? builder with
  | none => .error .noSuchPart
  | some o =>
    let op := Value.text o.name
    match o, args with
    | .exists, [property] | .notExists, [property] =>
      condition property op .null .null .null .null join
    | .oneOf, [property, values] | .noneOf, [property, values] => do
      condition property op .null (.tuple (← values.elements)) .null .null join
    | .between, [property, low, high] => condition property op .null .null low high join
    | .exists, _ | .notExists, _ | .between, _ => .error .wrongType
    | _, [property, value] => condition property op value .null .null .null join
    | _, _ => .error .wrongType

/-- A condition with others nested in it. -/
def nest (head : Value) (children : List Value) : Result Value :=
  match head with
  | .record .condition [p, o, v, vs, l, h, join] =>
    let head : Value := .record .condition [p, o, v, vs, l, h, join]
    .ok (if children.isEmpty then head else .record .group [.tuple (head :: children), join])
  | _ => .error .noSuchPart

/-- An atomic operation by the name of its builder. -/
def buildAtomic (name : Text) (args : List Value) (source : Option Value) : Result Value :=
  match Change.ofName? name, args, source with
  | none, _, _ => .error .noSuchPart
  | some .setIfNotExists, [property, value], source =>
    make .atomicOperation [property, .text name, value, source.getD .null]
  | some _, [property, value], none => make .atomicOperation [property, .text name, value, .null]
  | some _, _, _ => .error .wrongType

/-- A test of a sort key by the name of its builder. There are builders for what a sort key can be
asked only. -/
def buildRangeKey (builder : Text) (args : List Value) : Result Value :=
  match (builtTest? builder).filter Operation.onRangeKey, args with
  | none, _ => .error .noSuchPart
  | some .between, [name, low, high] =>
    make .rangeKey [name, .text Operation.between.name, .null, low, high]
  | some .between, _ => .error .wrongType
  | some o, [name, value] => make .rangeKey [name, .text o.name, value, .null, .null]
  | some _, _ => .error .wrongType

/-- So many keys of one attribute, numbered from zero. -/
def numberedKeys (count : Int) (name : Text) : Result Value :=
  if count < 0 then .error (.badValue (some "count must be >= 0"))
  else .ok (.list ((List.range count.toNat).map fun i =>
    .map [(name, .text (name ++ "-" ++ toString i))]))

end TableGateway.Description
