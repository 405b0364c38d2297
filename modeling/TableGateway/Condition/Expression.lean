import TableGateway.Condition.Reading
import TableGateway.Placeholder

/-!
# Condition expressions

Each condition stands in parentheses of its own, each group with more than one member too. A group of
one member is written as that member, and what has no condition in it is not written at all. A
condition whose property has no text cannot be written; its names and operands have no tokens.
-/
namespace TableGateway

namespace Condition

/-- The text of a test between its parentheses. -/
def fragment (e : Encoder) (c : Condition) : Text :=
  let property := c.property.display
  let name := e.name property
  let value := e.value property
  let members (n : Nat) : Text := Text.intercalate "," (e.memberValues property n)
  match c.test with
  | .compare .equal _ => name ++ " = " ++ value
  | .compare .notEqual _ => name ++ " <> " ++ value
  | .compare .lowerThan _ => name ++ " < " ++ value
  | .compare .lowerOrEqualThan _ => name ++ " <= " ++ value
  | .compare .biggerThan _ => name ++ " > " ++ value
  | .compare .biggerOrEqualThan _ => name ++ " >= " ++ value
  | .compare .beginsWith _ => "begins_with(" ++ name ++ ", " ++ value ++ ")"
  | .compare .contains _ => "contains(" ++ name ++ ", " ++ value ++ ")"
  | .compare .notContains _ => "not contains(" ++ name ++ ", " ++ value ++ ")"
  | .present => "attribute_exists(" ++ name ++ ")"
  | .absent => "attribute_not_exists(" ++ name ++ ")"
  | .oneOf vs => name ++ " in (" ++ members vs.length ++ ")"
  | .noneOf vs => "not " ++ name ++ " in (" ++ members vs.length ++ ")"
  | .between _ _ =>
    name ++ " between " ++ e.lowValue property ++ " and " ++ e.highValue property

def nameBinding (e : Encoder) (c : Condition) : Text × Value :=
  (e.name c.property.display, c.property)

/-- What each operand token of a condition stands for. -/
def valueBindings (e : Encoder) (c : Condition) : List (Text × Value) :=
  let property := c.property.display
  match c.test with
  | .compare _ v => [(e.value property, v)]
  | .present | .absent => []
  | .oneOf vs | .noneOf vs => (e.memberValues property vs.length).zip vs
  | .between low high => [(e.lowValue property, low), (e.highValue property, high)]

/-- The operands of a condition bound to their tokens; a test without operands needs no token. -/
def bindOperands (e : Encoder) (target : Fields) (c : Condition) : Result Fields :=
  if c.test.isExistence then .ok target
  else do
    let _ ← c.property.shown
    Placeholder.bindAll target (c.valueBindings e)

end Condition

namespace Tree

mutual

def text (e : Encoder) : Tree → Text
  | leaf c => "(" ++ c.fragment e ++ ")"
  | group [t] _ => text e t
  | group ts _ =>
    let inner := joined e "" ts
    if inner = "" then "" else "(" ++ inner ++ ")"

/-- Members one after another behind what is written already. -/
def joined (e : Encoder) (written : Text) : List Tree → Text
  | [] => written
  | t :: ts =>
    let next := text e t
    let written' :=
      if next = "" then written
      else if written = "" then next
      else written ++ " " ++ t.join.name ++ " " ++ next
    joined e written' ts

end

def expression (e : Encoder) (ts : List Tree) : Text := joined e "" ts

def writable (ts : List Tree) : Bool := (propertiesAll ts).all Value.hasDisplay

/-- The expression, where all properties have a text. -/
def write (e : Encoder) (ts : List Tree) : Result Text :=
  if writable ts then .ok (expression e ts) else .error .wrongType

def nameBindings (e : Encoder) (ts : List Tree) : List (Text × Value) :=
  (leavesAll ts).map (Condition.nameBinding e)

def valueBindings (e : Encoder) (ts : List Tree) : List (Text × Value) :=
  (leavesAll ts).flatMap (Condition.valueBindings e)

def names (e : Encoder) (ts : List Tree) : Result Fields :=
  Placeholder.bindNames e [] (propertiesAll ts)

def values (e : Encoder) (ts : List Tree) : Result Fields :=
  (leavesAll ts).foldlM (Condition.bindOperands e) []

def compile (e : Encoder) (ts : List Tree) : Result Clause := do
  return ⟨← write e ts, ← names e ts, ← values e ts⟩

end Tree

namespace Forest

def expression (e : Encoder) (f : Forest) : Result Text := f.whole (Tree.write e f.trees)

def names (e : Encoder) (f : Forest) : Result Fields := f.whole (Tree.names e f.trees)

def values (e : Encoder) (f : Forest) : Result Fields := f.whole (Tree.values e f.trees)

/-- The expression is written first, so a member that is no condition is met before a collision. -/
def compile (e : Encoder) (f : Forest) : Result Clause := do
  return ⟨← f.expression e, ← f.names e, ← f.values e⟩

end Forest

/-- The clause of the conditions under which a write goes through; none where there are none. -/
def conditionClause (conditions : Value) : Result (Option Clause) :=
  if conditions.truthy then do
    let f ← Forest.read conditions
    some <$> f.compile .ofCondition
  else .ok none

end TableGateway
