import TableGateway.Attribute.Basic

/-!
# Attribute values read back

The first key of a map names the kind, in any case of letters, and the body is read for that kind:
numbers become decimals, bytes come in the store's wrapper, sets drop what is the same. Texts and
truth values are taken as they are, of whatever type the body is.
-/
namespace TableGateway.Attribute

/-- The size from which on a whole number in a row is out of range. -/
def wholeLimit : Int := twoTo 63

/-- A whole number out of a value, within the range of the machine. -/
def wholeOf (v : Value) : Result Int :=
  match v.number? with
  | some (.int n) => if n < -wholeLimit ∨ wholeLimit ≤ n then .error .outOfRange else .ok n
  | _ => .error (.badValue none)

def signOf (v : Value) : Result Bool := do
  match ← wholeOf v with
  | 0 => return false
  | 1 => return true
  | _ => .error (.badValue none)

def digitOf (v : Value) : Result Nat := do
  let n ← wholeOf v
  if 0 ≤ n ∧ n ≤ 9 then return n.toNat else .error (.badValue none)

/-- What stands in the place of the exponent: that, or a letter for an infinity or a non-number. -/
inductive Scale where
  | power (e : Int)
  | infinite
  | nan (signaling : Bool)

/-- The third part of a row that spells a decimal: a power, or a letter for what is none. -/
def scaleOf (v : Value) : Result Scale :=
  match v with
  | .text "F" => .ok .infinite
  | .text "n" => .ok (.nan false)
  | .text "N" => .ok (.nan true)
  | v => .power <$> wholeOf v

def digitsOf (v : Value) : Result (List Nat) :=
  match v with
  | .list vs | .tuple vs => vs.mapM digitOf
  | _ => .error (.badValue none)

/-- A decimal given as a row of sign, digits and exponent. -/
def decimalOfRow (vs : List Value) : Result Decimal :=
  match vs with
  | [sign, coefficient, exponent] => do
    let negative ← signOf sign
    let scale ← scaleOf exponent
    let ds ← digitsOf coefficient
    return match scale with
      | .power e => .finite negative (ofDigits ds) e
      | .infinite => .infinite negative
      | .nan signaling => .nan negative signaling (ofDigits ds)
  | _ => .error (.badValue none)

/-- A text as a decimal; what cannot be read as one is no number. -/
def decimalOfText (t : Text) : Decimal := (t.chars?.bind Decimal.read?).getD (.nan false false 0)

/-- A number out of a body, in any of the forms that a decimal can be made of. -/
def decodeNumber (body : Value) : Result Value := do
  let d ← match body with
    | .text s => .ok (decimalOfText s)
    | .bool b => .ok (.ofInt (if b then 1 else 0))
    | .number n => .ok n.toDecimal
    | .list vs | .tuple vs => decimalOfRow vs
    | _ => .error .wrongType
  return .number (.decimal (← storedDecimal d))

/-- Bytes come back in the store's wrapper. -/
def decodeBytes : Value → Result Value
  | .blob b => if b.wrapped then .error .wrongType else .ok (.blob { b with wrapped := true })
  | _ => .error .wrongType

/-- Members read one by one, each checked as soon as it is read. -/
def decodeMembers (read : Value → Result Value) : List Value → Result (List Value)
  | [] => .ok []
  | v :: vs => do
    let w ← read v
    if !w.hashable then .error .wrongType
    return w :: (← decodeMembers read vs)

def decodeSet (read : Value → Result Value) (body : Value) : Result Value := do
  let vs ← decodeMembers read (← body.elements)
  return .ofMembers false vs

/-- What a tag says of the body under it. -/
inductive Kind where
  | null
  | asIs
  | number
  | bytes
  | numbers
  | texts
  | byteRows
  | list
  | map

def Kind.ofTag? (tag : Text) : Option Kind :=
  match tag with
  | "null" => some .null
  | "bool" | "s" => some .asIs
  | "n" => some .number
  | "b" => some .bytes
  | "ns" => some .numbers
  | "ss" => some .texts
  | "bs" => some .byteRows
  | "l" => some .list
  | "m" => some .map
  | _ => none

mutual

/-- The first entry of a map tells the kind, the others are not looked at. -/
def decode : Value → Result Value
  | .map ((tag, body) :: _) =>
    match Kind.ofTag? tag.toLower with
    | none => .error .wrongType
    | some .null => .ok .null
    | some .asIs => .ok body
    | some .number => decodeNumber body
    | some .bytes => decodeBytes body
    | some .numbers => decodeSet decodeNumber body
    | some .texts => decodeSet .ok body
    | some .byteRows => decodeSet decodeBytes body
    | some .list => decodeList body
    | some .map => decodeMap body
  | v => .error (if v.truthy then .noSuchPart else .wrongType)

/-- The members of a list body. Characters, keys and numbers are no attribute values. -/
def decodeList : Value → Result Value
  | .list vs | .tuple vs | .set _ vs => .list <$> decodeAll vs
  | v => do
    match ← v.elements with
    | [] => return .list []
    | w :: _ => .error (if w.truthy then .noSuchPart else .wrongType)

def decodeMap : Value → Result Value
  | .map es => .map <$> decodeEntries es
  | _ => .error .noSuchPart

def decodeAll : List Value → Result (List Value)
  | [] => .ok []
  | v :: vs => do
    let w ← decode v
    return w :: (← decodeAll vs)

def decodeEntries : List (Text × Value) → Result Fields
  | [] => .ok []
  | (k, v) :: es => do
    let w ← decode v
    return (k, w) :: (← decodeEntries es)

end

end TableGateway.Attribute
