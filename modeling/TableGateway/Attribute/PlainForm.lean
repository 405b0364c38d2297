import TableGateway.Text.Base64
import TableGateway.Token

/-!
# Attribute values as plain data

The form inside a token of a value that is given in the form of requests: bytes as base64, map entries
by key. What stands in the body of another kind is taken as it is.
-/
namespace TableGateway.Attribute

def byteOf (v : Value) : Result UInt8 :=
  match v.number? with
  | some (.int n) =>
    if 0 ≤ n ∧ n < 256 then .ok (UInt8.ofNat n.toNat) else .error (.badValue none)
  | _ => .error .wrongType

/-- Rows of so many bytes are not made. -/
def longestRow : Int := twoTo 26

/-- The size from which on a row cannot even be counted with what belongs to it. -/
def rowLimit : Int := wholeLimit - 33

/-- So many zeros. -/
def zeros (n : Int) : Result (List UInt8) :=
  if n < -wholeLimit ∨ rowLimit ≤ n then .error .outOfRange
  else if n < 0 then .error (.badValue none)
  else if longestRow ≤ n then .error .tooLong
  else .ok (List.replicate n.toNat 0)

/-- The bytes that a value can be turned into; a count stands for so many zeros. -/
def rawBytes (v : Value) : Result (List UInt8) :=
  match v with
  | .blob b => if b.wrapped && b.mutable then .error .wrongType else .ok b.bytes
  | .text _ => .error .wrongType
  | .bool b => zeros (if b then 1 else 0)
  | .number (.int n) => zeros n
  | v => do (← v.elements).mapM byteOf

def base64Text (v : Value) : Result Value := do
  return .text (.whole (String.ofList (Base64.encode Base64.standard (← rawBytes v))))

mutual

def plainForm : Value → Result Value
  | .map [(tag, body)] =>
    match tag with
    | "B" => do return tagged "B" (← base64Text body)
    | "BS" => do return tagged "BS" (.list (← (← body.elements).mapM base64Text))
    | "L" => tagged "L" <$> plainList body
    | "M" => tagged "M" <$> plainMap body
    | "S" | "N" | "BOOL" | "NULL" | "SS" | "NS" => .ok (tagged tag body)
    | _ => .error (.badValue none)
  | _ => .error (.badValue none)

def plainList : Value → Result Value
  | .list vs | .tuple vs | .set _ vs => .list <$> plainAll vs
  | v => do if (← v.elements).isEmpty then return .list [] else .error (.badValue none)

def plainAll : List Value → Result (List Value)
  | [] => .ok []
  | v :: vs => do
    let w ← plainForm v
    return w :: (← plainAll vs)

/-- Entries are dealt with by key, so the fault of the first of them by key is the one reported. -/
def plainMap : Value → Result Value
  | .map es => do return .map (← settleEntries (Token.sortKeys (plainEntries es)))
  | v => do
    match ← Value.sort (← v.elements) with
    | [] => return .map []
    | place :: _ =>
      let _ ← v.memberAt place
      .error (.badValue none)

def plainEntries : List (Text × Value) → Entries (Result Value)
  | [] => []
  | (k, v) :: es => (k, plainForm v) :: plainEntries es

def settleEntries : Entries (Result Value) → Result Fields
  | [] => .ok []
  | (k, r) :: es => do
    let v ← r
    return (k, v) :: (← settleEntries es)

end

end TableGateway.Attribute
