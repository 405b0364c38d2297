import TableGateway.Fault
import TableGateway.Value.Same

/-!
# Comparing values

Two values are the same or not, and two of one kind may be in order. A decimal that is no number stands
in no order, and one that signals is not even told apart from a number: such a comparison is a fault.
A double that is no number is merely neither below nor above any other.
-/
namespace TableGateway.Value

mutual

/-- Does telling two values apart compare a signalling decimal with a number? Members are compared in
turn up to the first difference, those of lists and maps only where there are as many of them. -/
def clashes : Value → Value → Bool
  | .bool _, w => w.number?.any Number.isSignaling
  | .number n, w => w.number?.any fun m => n.isSignaling || m.isSignaling
  | .list xs, .list ys => xs.length = ys.length && clashesRow xs ys
  | .tuple xs, .tuple ys => clashesRow xs ys
  | .map es, .map fs => es.length = fs.length && clashesEntries es fs
  | .record k xs, .record l ys => k = l && clashesRow xs ys
  | _, _ => false
termination_by structural v => v

def clashesRow : List Value → List Value → Bool
  | x :: xs, y :: ys => clashes x y || (same x y && clashesRow xs ys)
  | _, _ => false
termination_by structural xs => xs

def clashesEntries : List (Text × Value) → List (Text × Value) → Bool
  | [], _ => false
  | (k, v) :: es, fs =>
    match Entries.get? fs k with
    | some w => clashes v w || (same v w && clashesEntries es fs)
    | none => false
termination_by structural es => es

end

/-- Are two values the same, as far as they can be told apart? -/
def equals (v w : Value) : Result Bool :=
  if clashes v w then .error .notComparable else .ok (same v w)

/-- Order of two numbers; none where one of them is a double that is no number. -/
def order (v w : Value) : Result (Option Ordering) :=
  match v.number?, w.number? with
  | some x, some y =>
    match x.order? y with
    | some o => .ok (some o)
    | none => if x.isDecimal || y.isDecimal then .error .notComparable else .ok none
  | _, _ => .error .wrongType

def atMost (v w : Value) : Result Bool := do return (← v.order w).any (· ≠ .gt)

mutual

/-- Does the first value stand before the second? Texts go by code points, rows of one kind by their
first members that differ, and a set stands before those that hold all of it and more. Values of two
kinds stand in no order. -/
def lessThan : Value → Value → Result Bool
  | .text s, .text t => .ok (s < t)
  | .blob b, .blob c => if b.wrapped || c.wrapped then .error .wrongType else .ok (b.bytes < c.bytes)
  | .list xs, .list ys => lessThanRow xs ys
  | .tuple xs, .tuple ys => lessThanRow xs ys
  | .set _ xs, .set _ ys => .ok (sameWithin xs ys && xs.length < ys.length)
  | v, w => do return (← v.order w) = some .lt
termination_by structural v => v

def lessThanRow : List Value → List Value → Result Bool
  | [], ys => .ok (!ys.isEmpty)
  | _ :: _, [] => .ok false
  | x :: xs, y :: ys => do if ← x.equals y then lessThanRow xs ys else lessThan x y
termination_by structural xs => xs

end

/-- A value put into a row that is held from its end: before the last members that it stands before. -/
def insertFromEnd (v : Value) : List Value → Result (List Value)
  | [] => .ok [v]
  | w :: ws => do
    if ← v.lessThan w then return w :: (← insertFromEnd v ws) else return v :: w :: ws

/-- A row in order, those that stand in none before each other in the order in which they come. -/
def sort (vs : List Value) : Result (List Value) := do
  return (← vs.foldlM (fun sorted v => insertFromEnd v sorted) []).reverse

end TableGateway.Value
