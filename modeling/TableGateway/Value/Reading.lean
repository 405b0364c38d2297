import TableGateway.Fault
import TableGateway.Value.Same

/-!
# Reading values

What a value can be used as: a text, a row of members, a map. Each reader names the fault of a value
that cannot be used so. The members of a text are its characters, those of a map its keys, those of
bytes their numbers.
-/
namespace TableGateway.Value

/-- The text that stands for a value in a name. -/
def shown (v : Value) : Result Text :=
  if v.hasDisplay then .ok v.display else .error .wrongType

def elements? : Value → Option (List Value)
  | .text s => some (s.toList.map fun c => .text (Text.singleton c))
  | .blob b => if b.wrapped then none else some (b.bytes.map fun x => int x.toNat)
  | .list xs | .tuple xs | .set _ xs => some xs
  | .map es => some (es.map fun e => .text e.1)
  | _ => none

def elements (v : Value) : Result (List Value) :=
  match v.elements? with
  | some xs => .ok xs
  | none => .error .wrongType

/-- The members of what may be left out or empty. -/
def elementsOrNone (v : Value) : Result (List Value) := if v.truthy then v.elements else .ok []

theorem elementsOrNone_list (xs : List Value) : (list xs).elementsOrNone = .ok xs := by
  cases xs <;> simp [elementsOrNone, truthy, elements, elements?]

def size (v : Value) : Result Nat :=
  match v.elements? with
  | some xs => .ok xs.length
  | none => .error .wrongType

/-- The entries of a map, asked for by name. -/
def entries : Value → Result Fields
  | .map es => .ok es
  | _ => .error .noSuchPart

/-- The entries of what may be left out or empty. -/
def entriesOrNone (v : Value) : Result Fields := if v.truthy then v.entries else .ok []

/-- A pair of a key and a value, given as a row of two. -/
def pair (v : Value) : Result (Text × Value) :=
  match v.elements? with
  | none => .error .wrongType
  | some [k, w] => if k.hashable then .ok (k.display, w) else .error .wrongType
  | some _ => .error (.badValue none)

/-- A map, or a row of pairs, as a map. -/
def toMap (v : Value) : Result Fields :=
  match v with
  | .map es => .ok es
  | v => do
    let xs ← v.elements
    let ps ← xs.mapM pair
    .ok (Entries.ofPairs ps)

/-- A set of the given members, if they can be members of one. -/
def setOf (frozen : Bool) (xs : List Value) : Result Value :=
  if allHashable xs then .ok (ofMembers frozen xs) else .error .wrongType

end TableGateway.Value
