import TableGateway.Value.Basic
import TableGateway.Operation

/-!
# Conditions

A condition tests one property; a group joins conditions and groups inside one pair of parentheses.
The join of a condition or group is the combinator before it. As values, both are records. A property
is mostly a text, but any value that is not empty is kept as it came.
-/
namespace TableGateway

/-- The tests that take one operand. -/
inductive Comparison where
  | equal
  | notEqual
  | lowerThan
  | lowerOrEqualThan
  | biggerThan
  | biggerOrEqualThan
  | beginsWith
  | contains
  | notContains
  deriving DecidableEq, Repr, Inhabited

namespace Comparison

def operation : Comparison → Operation
  | equal => .equal
  | notEqual => .notEqual
  | lowerThan => .lowerThan
  | lowerOrEqualThan => .lowerOrEqualThan
  | biggerThan => .biggerThan
  | biggerOrEqualThan => .biggerOrEqualThan
  | beginsWith => .beginsWith
  | contains => .contains
  | notContains => .notContains

end Comparison

/-- What a condition asks of its property, with the operands that it takes. -/
inductive Test where
  | compare (how : Comparison) (operand : Value)
  | present
  | absent
  | oneOf (operands : List Value)
  | noneOf (operands : List Value)
  | between (low high : Value)
  deriving Repr, Inhabited

namespace Test

def operation : Test → Operation
  | compare how _ => how.operation
  | present => .exists
  | absent => .notExists
  | oneOf _ => .oneOf
  | noneOf _ => .noneOf
  | between .. => .between

/-- Does the test only ask whether the property is there? -/
def isExistence : Test → Bool
  | present | absent => true
  | _ => false

/-- The operands in the four places of a record: value, values, low, high. -/
def operandFields : Test → List Value
  | compare _ v => [v, .null, .null, .null]
  | present | absent => [.null, .null, .null, .null]
  | oneOf vs | noneOf vs => [.null, .tuple vs, .null, .null]
  | between low high => [.null, .null, low, high]

end Test

/-- A test of one property, and how it is joined to the condition before it. -/
structure Condition where
  property : Value
  test : Test
  join : Join
  deriving Repr, Inhabited

namespace Condition

def toValue (c : Condition) : Value :=
  .record .condition
    (c.property :: .text c.test.operation.name :: c.test.operandFields ++ [.text c.join.name])

end Condition

/-- A condition, or a group of such trees in one pair of parentheses. -/
inductive Tree where
  | leaf (c : Condition)
  | group (members : List Tree) (join : Join)
  deriving Repr, Inhabited

namespace Tree

def join : Tree → Join
  | leaf c => c.join
  | group _ j => j

mutual

/-- The conditions of a tree in the order in which they are written. -/
def leaves : Tree → List Condition
  | leaf c => [c]
  | group ts _ => leavesAll ts

def leavesAll : List Tree → List Condition
  | [] => []
  | t :: ts => leaves t ++ leavesAll ts

end

def propertiesAll (ts : List Tree) : List Value := (leavesAll ts).map (·.property)

mutual

def toValue : Tree → Value
  | leaf c => c.toValue
  | group ts j => .record .group [.tuple (toValues ts), .text j.name]

def toValues : List Tree → List Value
  | [] => []
  | t :: ts => toValue t :: toValues ts

end

/-- A condition with others in its parentheses; alone it stays itself. -/
def nest (head : Condition) : List Tree → Tree
  | [] => leaf head
  | ts => group (leaf head :: ts) head.join

end Tree

end TableGateway
