import TableGateway.Attribute.Decoding

/-!
# Marshalling

A low-level client wants attribute values in the form of requests and answers in it. Which fields of a
request or an answer hold attribute values is fixed; all other fields pass as they are. Of two faults
the one in the field that comes first in the fixed order is reported. The bodies of actions hold such
fields again, to any depth.
-/
namespace TableGateway.Marshalling

def keysField : Text := "Keys"

/-- An item or a key in attribute values. -/
def marshalMap (v : Value) : Result Value := do
  return .map (Attribute.toEntries (← Attribute.ofEntries (← v.entries)))

def unmarshalMap (v : Value) : Result Value := do
  return .map (← Attribute.decodeEntries (← v.entries))

/-- One table's part of a request for several items. -/
def marshalTable (v : Value) : Result Value :=
  match v with
  | .map es =>
    match Entries.get? es keysField with
    | none => .error .noSuchKey
    | some keys => do
      let ks ← (← keys.elements).mapM marshalMap
      return .map (Entries.put es keysField (.list ks))
  | _ => .error .wrongType

def mapEntries (f : Value → Result Value) : Fields → Result Fields
  | [] => .ok []
  | (k, v) :: es => do
    let w ← f v
    return (k, w) :: (← mapEntries f es)

def marshalTables (v : Value) : Result Value := do
  return .map (← mapEntries marshalTable (← v.entries))

/-- The fields of a request whose entries are values. -/
def valueMaps : List Text := ["Key", "Item", "ExpressionAttributeValues", "ExclusiveStartKey"]

def actionsField : Text := "TransactItems"

/-- The fields of a request that are marshalled, in the order in which faults are reported. -/
def requestOrder : List Text := valueMaps ++ [("RequestItems" : Text), actionsField]

def faultIn? (es : Entries (Result Value)) (key : Text) : Option Fault :=
  match Entries.get? es key with
  | some (.error f) => some f
  | _ => none

/-- The fields once each has been dealt with. -/
def settle (es : Entries (Result Value)) : Result Fields :=
  match requestOrder.findSome? (faultIn? es) with
  | some f => .error f
  | none => .ok (es.filterMap fun e => e.2.toOption.map (e.1, ·))

/-- A field of a request that is not its list of actions. -/
def marshalField (k : Text) (v : Value) : Result Value :=
  if valueMaps.contains k then marshalMap v
  else if k = "RequestItems" then marshalTables v
  else .ok v

/-- The actions of a row that has no maps among its members: characters, keys and numbers. -/
def marshalOther (v : Value) : Result Value := do
  match ← v.elements with
  | [] => return .list []
  | _ => .error .noSuchPart

/-- A field whose value is a text or a number. -/
def marshalLeaf (k : Text) (v : Value) : Result Value :=
  if k = actionsField then marshalOther v else marshalField k v

mutual

/-- Each field of a request by itself; which of their faults counts is settled afterwards. -/
def marshalFields : List (Text × Value) → Entries (Result Value)
  | [] => []
  | (k, v) :: es =>
    (k, if k = actionsField then marshalActions v else marshalField k v) :: marshalFields es
termination_by structural es => es

def marshalActions : Value → Result Value
  | .list vs | .tuple vs | .set _ vs => .list <$> marshalAll vs
  | v => marshalOther v
termination_by structural v => v

def marshalAll : List Value → Result (List Value)
  | [] => .ok []
  | v :: vs => do
    let w ← marshalAction v
    return w :: (← marshalAll vs)
termination_by structural vs => vs

/-- An action of a transaction: the bodies are requests themselves. -/
def marshalAction : Value → Result Value
  | .map es => .map <$> marshalBodies es
  | _ => .error .noSuchPart
termination_by structural v => v

def marshalBodies : List (Text × Value) → Result Fields
  | [] => .ok []
  | (k, v) :: es => do
    let w ← marshalBody v
    return (k, w) :: (← marshalBodies es)
termination_by structural es => es

/-- The body of an action: a map, or a row of pairs of which the last with a name counts. -/
def marshalBody : Value → Result Value
  | .map es => .map <$> settle (marshalFields es)
  | .list vs | .tuple vs | .set _ vs => do
    return .map (← settle (Entries.ofPairs (← marshalPairs vs)))
  | v => .map <$> v.toMap
termination_by structural v => v

def marshalPairs : List Value → Result (List (Text × Result Value))
  | [] => .ok []
  | v :: vs => do
    let e ← marshalPair v
    return e :: (← marshalPairs vs)
termination_by structural vs => vs

def marshalPair : Value → Result (Text × Result Value)
  | .list vs | .tuple vs | .set _ vs => marshalRow vs
  | v => do
    let (k, w) ← v.pair
    return (k, marshalLeaf k w)
termination_by structural v => v

/-- A field given as a row of its name and its value. -/
def marshalRow : List Value → Result (Text × Result Value)
  | [k, v] =>
    let name := k.display
    if k.hashable then
      .ok (name, if name = actionsField then marshalActions v else marshalField name v)
    else .error .wrongType
  | _ => .error (.badValue none)
termination_by structural vs => vs

end

/-- A request in attribute values. -/
def request (r : Fields) : Result Fields := settle (marshalFields r)

/-- A field of an answer, where it is there and passes the test, replaced by what it stands for. -/
def replaced (key : Text) (wanted : Value → Bool) (f : Value → Result Value) (r : Fields) :
    Result Fields :=
  match Entries.get? r key with
  | some v => if wanted v then do return Entries.put r key (← f v) else .ok r
  | none => .ok r

def unmarshalAll (v : Value) : Result Value := do
  return .list (← (← v.elements).mapM unmarshalMap)

def unmarshalTable (v : Value) : Result Value := do
  let es ← v.entries
  let ks ← ((Entries.get? es keysField).getD (.list [])).elements
  return .map (Entries.put es keysField (.list (← ks.mapM unmarshalMap)))

def unmarshalTables (f : Value → Result Value) (v : Value) : Result Value := do
  return .map (← mapEntries f (← v.entries))

/-- An answer out of attribute values, field after field. -/
def answer (r : Fields) : Result Fields := do
  let r ← replaced "Item" Value.truthy unmarshalMap r
  let r ← replaced "Attributes" Value.truthy unmarshalMap r
  let r ← replaced "LastEvaluatedKey" Value.truthy unmarshalMap r
  let r ← replaced "Items" (fun _ => true) unmarshalAll r
  let r ← replaced "Responses" (fun _ => true) (unmarshalTables unmarshalAll) r
  replaced "UnprocessedKeys" Value.truthy (unmarshalTables unmarshalTable) r

end TableGateway.Marshalling
