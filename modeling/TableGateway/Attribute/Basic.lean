import TableGateway.Value.Reading

/-!
# Attribute values

What the store keeps in an attribute: ten kinds of value, numbers as text and sets as rows. A value
goes over to the first kind that fits it. Doubles, opaque things and mixed sets fit none.
-/
namespace TableGateway

/-- The ten kinds of attribute values. -/
inductive Attribute where
  | null
  | bool (b : Bool)
  | number (digits : Text)
  | text (s : Text)
  | bytes (mutable : Bool) (bs : List UInt8)
  | numbers (ds : List Text)
  | texts (ss : List Text)
  | byteRows (rows : List (Bool × List UInt8))
  | list (items : List Attribute)
  | map (entries : List (Text × Attribute))
  deriving Repr, Inhabited

namespace Attribute

/-- A decimal as the store holds it, unless it signals. -/
def storedDecimal (d : Decimal) : Result Decimal :=
  match d.stored with
  | .ok d => .ok d
  | .error s => .error (.unstorable s)

/-- The digits of a number; a positive infinity and a plain non-number are refused. -/
def digitsOfNumber : Number → Result Text
  | .float _ => .error .wrongType
  | .int n => do return (← storedDecimal (Decimal.ofInt n)).text
  | .decimal d => do
    let s := (← storedDecimal d).text
    if s = "Infinity" ∨ s = "NaN" then .error .wrongType else return s

/-- The digits of what counts as a number. -/
def digits (v : Value) : Result Text :=
  match v.number? with
  | some n => digitsOfNumber n
  | none => .error .wrongType

def bytesOf? : Value → Option (Bool × List UInt8)
  | .blob b => some (b.mutable, b.bytes)
  | _ => none

/-- A set of numbers, of texts or of bytes; the empty one is a set of numbers. -/
def ofSet (vs : List Value) : Result Attribute :=
  if vs.all (·.number?.isSome) then numbers <$> vs.mapM digits
  else match vs.mapM Value.text?, vs.mapM bytesOf? with
    | some ss, _ => .ok (texts ss)
    | none, some rows => .ok (byteRows rows)
    | none, none => .error .wrongType

mutual

/-- The attribute value of a value; a member that has none decides for the whole. -/
def ofValue : Value → Result Attribute
  | .null => .ok null
  | .bool b => .ok (bool b)
  | .number n => number <$> digitsOfNumber n
  | .text s => .ok (text s)
  | .blob b => .ok (bytes b.mutable b.bytes)
  | .set _ vs => ofSet vs
  | .map es => map <$> ofEntries es
  | .list vs | .tuple vs => list <$> ofValues vs
  | _ => .error .wrongType

def ofValues : List Value → Result (List Attribute)
  | [] => .ok []
  | v :: vs => do
    let a ← ofValue v
    return a :: (← ofValues vs)

def ofEntries : List (Text × Value) → Result (List (Text × Attribute))
  | [] => .ok []
  | (k, v) :: es => do
    let a ← ofValue v
    return (k, a) :: (← ofEntries es)

end

def tagged (tag : Text) (body : Value) : Value := .map [(tag, body)]

def blobValue (mutable : Bool) (bs : List UInt8) : Value := .blob ⟨bs, mutable, false⟩

mutual

/-- The form in requests: a map of one entry whose key names the kind. -/
def toValue : Attribute → Value
  | null => tagged "NULL" (.bool true)
  | bool b => tagged "BOOL" (.bool b)
  | number d => tagged "N" (.text d)
  | text s => tagged "S" (.text s)
  | bytes mutable bs => tagged "B" (blobValue mutable bs)
  | numbers ds => tagged "NS" (.list (ds.map .text))
  | texts ss => tagged "SS" (.list (ss.map .text))
  | byteRows rows => tagged "BS" (.list (rows.map fun r => blobValue r.1 r.2))
  | list as => tagged "L" (.list (toValues as))
  | map es => tagged "M" (.map (toEntries es))

def toValues : List Attribute → List Value
  | [] => []
  | a :: as => toValue a :: toValues as

def toEntries : List (Text × Attribute) → Fields
  | [] => []
  | (k, a) :: es => (k, toValue a) :: toEntries es

end

/-- A value in the form of requests. -/
def marshal (v : Value) : Result Value := toValue <$> ofValue v

end Attribute

end TableGateway
