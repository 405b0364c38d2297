import TableGateway.Condition.Expression

/-!
# Filters

A filter map says of each property what its value must be: a value to equal, a list of which it must
be a member, or a map with an operation. Entries that could only match an absent value are dropped.
Conditions come in three groups: equalities, then operations, then lists, each in map order.
-/
namespace TableGateway.Filter

/-- What an entry of a filter map asks for. -/
inductive Entry where
  | nothing
  | member (candidates : List Value)
  | described (description : Fields)
  | equals (operand : Value)

def Entry.ofValue : Value → Entry
  | .null => .nothing
  | .list vs | .tuple vs => .member vs
  | .map es => if Entries.has es "operation" then .described es else .equals (.map es)
  | v => .equals v

def present (vs : List Value) : List Value := vs.filter fun v => !v.isNull

/-- The operation of a description with its operands, or nothing if an operand is missing. -/
def purgeOperands (es : Fields) : Result (Option Fields) := do
  let op ← Condition.readOperation (Value.entry es "operation")
  let head : Text × Value := ("operation", .text op.name)
  match op with
  | .exists | .notExists => return some [head]
  | .oneOf | .noneOf =>
    let kept := present (← (Value.entry es "values").elementsOrNone)
    return if kept.isEmpty then none else some [head, ("values", .list kept)]
  | .between =>
    let low := Value.entryOr es "low" "start"
    let high := Value.entryOr es "high" "end"
    return if low.isNull || high.isNull then none else some [head, ("low", low), ("high", high)]
  | _ =>
    let v := Value.entry es "value"
    return if v.isNull then none else some [head, ("value", v)]

/-- The join of a description and what is nested in it, as far as it has them. -/
def linkage (es : Fields) : Result Fields := do
  let join := Value.entryOr es "join_as" "joinAs"
  let nested := Value.entry es "nested"
  let members ← nested.elementsOrNone
  return (if join.isNull then [] else [("join_as", join)] : Fields)
    ++ (if nested.truthy then [("nested", .list members)] else [] : Fields)

def purgeDescription (es : Fields) : Result (Option Fields) := do
  match ← purgeOperands es with
  | none => return none
  | some operands => return some (operands ++ (← linkage es))

/-- The entry of one property without what is missing in it; none if nothing is left. -/
def purgeEntry (v : Value) : Result (Option Value) :=
  match Entry.ofValue v with
  | .nothing => .ok none
  | .member vs =>
    let kept := present vs
    .ok (if kept.isEmpty then none else some (.list kept))
  | .described es => do return (← purgeDescription es).map .map
  | .equals v => .ok (some v)

def purgeEntries : Fields → Result Fields
  | [] => .ok []
  | (property, v) :: es => do
    let kept ← purgeEntry v
    let rest ← purgeEntries es
    return (kept.map (property, ·)).toList ++ rest

def purge (filters : Value) : Result Fields := do purgeEntries (← filters.entriesOrNone)

/-- The conditions of a filter map by the three forms of its entries. -/
structure Sorted where
  equalities : List Value
  described : List Value
  memberships : List Value

def Sorted.all (s : Sorted) : List Value := s.equalities ++ s.described ++ s.memberships

/-- One more condition in front of those that follow it in the map. -/
def Sorted.add (v : Value) (s : Sorted) (c : Value) : Sorted :=
  match Entry.ofValue v with
  | .member _ => { s with memberships := c :: s.memberships }
  | .described _ => { s with described := c :: s.described }
  | _ => { s with equalities := c :: s.equalities }

def conditionOf (property : Text) (v : Value) : Result Value :=
  match Entry.ofValue v with
  | .member vs =>
    Condition.toValue <$> Condition.ofFields (.text property) (.text Operation.oneOf.name) .null
      (.tuple vs) .null .null (.text Join.and.name)
  | .described es => Condition.parse (.map (Entries.put es "property" (.text property)))
  | _ =>
    Condition.toValue <$> Condition.ofFields (.text property) (.text Operation.equal.name) v
      .null .null .null (.text Join.and.name)

def sortEntries : Fields → Result Sorted
  | [] => .ok ⟨[], [], []⟩
  | (property, v) :: es => do
    let c ← conditionOf property v
    let rest ← sortEntries es
    return rest.add v c

/-- The conditions of a filter map, as records. -/
def conditions (filters : Value) : Result (List Value) := do
  let kept ← purge filters
  return (← sortEntries kept).all

/-- The clause of a filter map; none where nothing is asked. -/
def clause (filters : Value) : Result (Option Clause) := do
  let cs ← conditions filters
  if cs.isEmpty then return none
  some <$> (Forest.ofRecords cs).compile .ofFilter

end TableGateway.Filter
