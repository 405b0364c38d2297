import TableGateway.Text.Basic

/-!
# Operations

The comparisons of a condition, the combinators between conditions and the changes that an update
makes in place, each with the name under which callers write it.
-/
namespace TableGateway

/-- The comparisons that a condition can make. -/
inductive Operation where
  | equal
  | notEqual
  | lowerThan
  | lowerOrEqualThan
  | biggerThan
  | biggerOrEqualThan
  | beginsWith
  | contains
  | notContains
  | exists
  | notExists
  | oneOf
  | noneOf
  | between
  deriving DecidableEq, Repr, Inhabited

namespace Operation

/-- The name under which callers write it. -/
def name : Operation → Text
  | equal => "equal"
  | notEqual => "not_equal"
  | lowerThan => "lower_than"
  | lowerOrEqualThan => "lower_or_equal_than"
  | biggerThan => "bigger_than"
  | biggerOrEqualThan => "bigger_or_equal_than"
  | beginsWith => "begins_with"
  | contains => "contains"
  | notContains => "not_contains"
  | .exists => "exists"
  | notExists => "not_exists"
  | oneOf => "in"
  | noneOf => "not_in"
  | between => "between"

def all : List Operation :=
  [equal, notEqual, lowerThan, lowerOrEqualThan, biggerThan, biggerOrEqualThan, beginsWith, contains,
    notContains, .exists, notExists, oneOf, noneOf, between]

def ofName? (s : Text) : Option Operation := all.find? fun o => o.name = s

/-- An operation is found by its name. -/
@[simp] theorem ofName?_name (o : Operation) : ofName? o.name = some o := by cases o <;> rfl

/-- Operations that a sort key can be asked for. -/
def onRangeKey : Operation → Bool
  | equal | lowerThan | lowerOrEqualThan | biggerThan | biggerOrEqualThan | beginsWith | between => true
  | _ => false

end Operation

/-- How a condition is joined to the one before it. -/
inductive Join where
  | and
  | or
  deriving DecidableEq, Repr, Inhabited

namespace Join

def name : Join → Text
  | .and => "and"
  | .or => "or"

def ofName? (s : Text) : Option Join :=
  if s = "and" then some .and else if s = "or" then some .or else none

@[simp] theorem ofName?_name (j : Join) : ofName? j.name = some j := by cases j <;> rfl

end Join

/-- Changes of one attribute that the store makes in place. -/
inductive Change where
  | sum
  | subtract
  | add
  | setIfNotExists
  | addToSet
  | removeFromSet
  deriving DecidableEq, Repr, Inhabited

namespace Change

def name : Change → Text
  | sum => "sum"
  | subtract => "subtract"
  | add => "add"
  | setIfNotExists => "set_if_not_exists"
  | addToSet => "add_to_set"
  | removeFromSet => "remove_from_set"

def all : List Change := [sum, subtract, add, setIfNotExists, addToSet, removeFromSet]

def ofName? (s : Text) : Option Change := all.find? fun c => c.name = s

@[simp] theorem ofName?_name (c : Change) : ofName? c.name = some c := by cases c <;> rfl

/-- Does the operand stand for a set of elements? -/
def takesSet : Change → Bool
  | addToSet | removeFromSet => true
  | _ => false

end Change

end TableGateway
