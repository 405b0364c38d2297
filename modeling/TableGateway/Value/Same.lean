import TableGateway.Number.Order
import TableGateway.Value.Basic

/-!
# Equality of values

Numbers are the same when their exact values are, in whatever form, truth values counting as 0 and
1; a non-number is not even the same as itself. Bytes are compared without regard to their kind, maps
and sets without regard to order, and a list is never the same as a tuple.
-/
namespace TableGateway.Value

/-- The exact value of what counts as a number. -/
def exactForm? (v : Value) : Option Exact := v.number?.bind Number.exactForm?

def sameNumber (a b : Option Exact) : Bool :=
  match a, b with
  | some x, some y => x = y
  | _, _ => false

mutual

def same : Value → Value → Bool
  | .null, w => w.isNull
  | .bool b, w => sameNumber (exactForm? (.bool b)) w.exactForm?
  | .number n, w => sameNumber n.exactForm? w.exactForm?
  | .text s, .text t => s = t
  | .blob b, .blob c => b.bytes = c.bytes
  | .list xs, .list ys => sameRow xs ys
  | .tuple xs, .tuple ys => sameRow xs ys
  | .set _ xs, .set _ ys => sameWithin xs ys && ys.all (sameAsSome xs)
  | .map es, .map fs => sameEntries es fs && fs.all fun e => Entries.has es e.1
  | .anything, .anything => true
  | .object i, .object j => i = j
  | .record k xs, .record l ys => k = l && sameRow xs ys
  | _, _ => false
termination_by structural v => v

def sameRow : List Value → List Value → Bool
  | [], [] => true
  | x :: xs, y :: ys => same x y && sameRow xs ys
  | _, _ => false
termination_by structural xs => xs

/-- Is each member of the first list the same as some member of the second? -/
def sameWithin : List Value → List Value → Bool
  | [], _ => true
  | x :: xs, ys => ys.any (same x) && sameWithin xs ys
termination_by structural xs => xs

/-- Is some member of the list the same as the given one? -/
def sameAsSome : List Value → Value → Bool
  | [], _ => false
  | x :: xs, y => same x y || sameAsSome xs y
termination_by structural xs => xs

/-- Has the second map each entry of the first? -/
def sameEntries : List (Text × Value) → List (Text × Value) → Bool
  | [], _ => true
  | (k, v) :: es, fs =>
    (match Entries.get? fs k with
      | some w => same v w
      | none => false) && sameEntries es fs
termination_by structural es => es

end

instance : BEq Value := ⟨same⟩

mutual

/-- Can the value be a member of a set? -/
def hashable : Value → Bool
  | .number (.decimal (.nan _ true _)) => false
  | .blob b => !b.mutable
  | .list _ | .map _ => false
  | .set frozen _ => frozen
  | .tuple xs => allHashable xs
  | .record _ xs => allHashable xs
  | _ => true

def allHashable : List Value → Bool
  | [] => true
  | x :: xs => hashable x && allHashable xs

end

/-- Without the members that are the same as an earlier one. -/
def distinct (xs : List Value) : List Value :=
  xs.foldl (fun kept x => if kept.any (same x) then kept else kept ++ [x]) []

/-- Numbers go by size and texts by code points; other members keep the order in which they came. -/
def precedes (v w : Value) : Bool :=
  match v, w with
  | .text s, .text t => s < t
  | v, w => match v.number?, w.number? with
    | some x, some y => x.lessThan y
    | _, _ => false

def insertMember (v : Value) : List Value → List Value
  | [] => [v]
  | w :: ws => if precedes w v then w :: insertMember v ws else v :: w :: ws

def arrange : List Value → List Value
  | [] => []
  | v :: vs => insertMember v (arrange vs)

/-- The set of the given members. -/
def ofMembers (frozen : Bool) (vs : List Value) : Value := .set frozen (arrange (distinct vs))

end TableGateway.Value
