import TableGateway.Value.Comparison
import TableGateway.Value.Reading

/-!
# Placeholders

An expression names attributes and operands by tokens, '#' before a name and ':' before an operand,
and two maps say what each token stands for. A token may be bound again only to the same content. A
name can be any value with a text to show for it: the text makes the token, the value is the content.
-/
namespace TableGateway

/-- How a property becomes the body of a token. -/
structure Encoder where
  stem : Text
  transform : Option (Text → Text)

namespace Encoder

/-- The property itself, with a stem before it. -/
def withStem (stem : Text) : Encoder := ⟨stem, none⟩

def plain : Encoder := withStem ""

def ofCondition : Encoder := withStem "__condition_"

def ofFilter : Encoder := withStem "__filter_"

def ofProjection : Encoder := withStem "__projection_"

def token (e : Encoder) (property : Text) : Text :=
  match e.transform with
  | none => e.stem ++ property
  | some f => f (e.stem ++ property)

def name (e : Encoder) (property : Text) : Text := "#" ++ e.token property

def value (e : Encoder) (property : Text) : Text := ":" ++ e.token property

/-- The token of the operand at a place of a list. -/
def memberValue (e : Encoder) (property : Text) (i : Nat) : Text :=
  e.value property ++ "_" ++ toString i

def memberValues (e : Encoder) (property : Text) (count : Nat) : List Text :=
  (List.range count).map (e.memberValue property)

def lowValue (e : Encoder) (property : Text) : Text := e.value property ++ "_start"

def highValue (e : Encoder) (property : Text) : Text := e.value property ++ "_end"

end Encoder

namespace Placeholder

/-- A token is bound, or stays bound to the same content. A value does not say which of several numbers
that are none it holds, so such a content is taken for another one each time. -/
def bind (target : Fields) (token : Text) (content : Value) : Result Fields :=
  match Entries.get? target token with
  | none => .ok (target ++ [(token, content)])
  | some bound => do
    if ← bound.equals content then return target else refuse (.collision token)

/-- All bindings in turn, up to the first that fails. -/
def bindAll (target : Fields) : Fields → Result Fields
  | [] => .ok target
  | (token, content) :: bs => do bindAll (← bind target token content) bs

/-- A name bound to its own token. -/
def bindName (e : Encoder) (target : Fields) (name : Value) : Result Fields := do
  bind target (e.name (← name.shown)) name

def bindNames (e : Encoder) (target : Fields) : List Value → Result Fields
  | [] => .ok target
  | n :: ns => do bindNames e (← bindName e target n) ns

def merge (maps : List Fields) : Result Fields := bindAll [] maps.flatten

/-- The union of maps that are given as values. -/
def mergeValues (maps : List Value) : Result Fields :=
  maps.foldlM (fun target m => do bindAll target (← m.entries)) []

end Placeholder

/-- An expression and what its tokens stand for. -/
structure Clause where
  expression : Text
  names : Fields
  values : Fields

namespace Clause

/-- The clause as fields of a request; a map of operands stands there only if it has any. -/
def fields (c : Clause) (expressionField : Text) : Fields :=
  let operands : Fields :=
    if c.values.isEmpty then [] else [("ExpressionAttributeValues", .map c.values)]
  [(expressionField, .text c.expression), ("ExpressionAttributeNames", .map c.names)] ++ operands

end Clause

/-- The fields of a clause that may be left out. -/
def clauseFields (c : Option Clause) (expressionField : Text) : Fields :=
  match c with
  | none => []
  | some c => c.fields expressionField

end TableGateway
