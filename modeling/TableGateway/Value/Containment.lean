import TableGateway.Value.Comparison
import TableGateway.Value.Reading

/-!
# What a value contains

Whether something stands in a container, and what stands at a place of a row. A map contains its keys
and a text its parts; bytes contain the numbers of single bytes and shorter rows of bytes.
-/
namespace TableGateway.Value

/-- Does the first row stand somewhere in the second? -/
def occursIn {α : Type} [BEq α] (part : List α) : List α → Bool
  | [] => part.isEmpty
  | c :: cs => part.isPrefixOf (c :: cs) || occursIn part cs

/-- Is one of the members the same as the value? -/
def someEquals (v : Value) : List Value → Result Bool
  | [] => .ok false
  | w :: ws => do if ← w.equals v then return true else someEquals v ws

def bytesContain (bs : List UInt8) (part : Value) : Result Bool :=
  match part with
  | .blob b => if b.wrapped then .error .wrongType else .ok (occursIn b.bytes bs)
  | v => match v.number? with
    | some (.int n) =>
      if 0 ≤ n ∧ n < 256 then .ok (bs.contains (UInt8.ofNat n.toNat)) else .error (.badValue none)
    | _ => .error .wrongType

/-- Can the value be looked up among the members of a set? It is enough that its own members can. -/
def findable : Value → Bool
  | .set false _ => true
  | v => v.hashable

def contains (v part : Value) : Result Bool :=
  match v with
  | .map es =>
    if part.hashable then .ok (part.text?.any (Entries.has es)) else .error .wrongType
  | .set _ xs => if part.findable then .ok (xs.any (same · part)) else .error .wrongType
  | .list xs | .tuple xs => someEquals part xs
  | .text s => match part with
    | .text p => .ok (occursIn p.toList s.toList)
    | _ => .error .wrongType
  | .blob b => if b.wrapped then .error .wrongType else bytesContain b.bytes part
  | _ => .error .wrongType

/-- The member at a place, counted from the end where the number is below zero. -/
def placed (xs : List Value) (n : Int) : Result Value :=
  let i := if n < 0 then n + xs.length else n
  match if 0 ≤ i then xs[i.toNat]? else none with
  | some x => .ok x
  | none => .error .noSuchPlace

/-- The member of a row at the place that a whole number names. -/
def memberAt (v place : Value) : Result Value :=
  match v with
  | .list _ | .tuple _ | .blob _ => do
    let xs ← v.elements
    match place.number? with
    | some (.int n) => placed xs n
    | _ => .error .wrongType
  | _ => .error .wrongType

end TableGateway.Value
