import TableGateway.Attribute.Decoding
import TableGateway.Json.Reader
import TableGateway.Json.Writer
import TableGateway.Text.Base64
import TableGateway.Text.Blank
import TableGateway.Value.Containment

/-!
# Pagination tokens

A token is the key after which to go on: its attribute values as a document with sorted keys and
without blanks, in UTF-8 and URL-safe base64. Reading refuses every text that does not hold such a
document; a number that the store cannot hold is reported as that.
-/
namespace TableGateway.Token

def insertKey {α : Type} (key : Text) (a : α) : Entries α → Entries α
  | [] => [(key, a)]
  | (k, b) :: es => if k < key then (k, b) :: insertKey key a es else (key, a) :: (k, b) :: es

/-- The entries by the code points of their keys. -/
def sortKeys {α : Type} : Entries α → Entries α
  | [] => []
  | (k, a) :: es => insertKey k a (sortKeys es)

def bytesText (bs : List UInt8) : Json :=
  .text (.whole (String.ofList (Base64.encode Base64.standard bs)))

def tagged (tag : Text) (body : Json) : Json := .object [(tag, body)]

mutual

/-- An attribute value inside a token. -/
def form : Attribute → Json
  | .null => tagged "NULL" (.bool true)
  | .bool b => tagged "BOOL" (.bool b)
  | .number d => tagged "N" (.text d)
  | .text s => tagged "S" (.text s)
  | .bytes _ bs => tagged "B" (bytesText bs)
  | .numbers ds => tagged "NS" (.array (ds.map .text))
  | .texts ss => tagged "SS" (.array (ss.map .text))
  | .byteRows rows => tagged "BS" (.array (rows.map fun r => bytesText r.2))
  | .list as => tagged "L" (.array (formAll as))
  | .map es => tagged "M" (.object (sortKeys (formEntries es)))

def formAll : List Attribute → List Json
  | [] => []
  | a :: as => form a :: formAll as

def formEntries : List (Text × Attribute) → List (Text × Json)
  | [] => []
  | (k, a) :: es => (k, form a) :: formEntries es

end

def document (key : List (Text × Attribute)) : Json :=
  .object [("lastKey", .object (formEntries key))]

/-- The token that holds a text. -/
def ofText (t : Text) : Result Text :=
  match t.utf8? with
  | some bs => .ok (.whole (String.ofList (Base64.encode Base64.urlSafe bs)))
  | none => .error .notEncodable

/-- The attribute value that a row has at a place, under the text of the place. -/
def placeEntry (row place : Value) : Result (Text × Attribute) := do
  let a ← Attribute.ofValue (← row.memberAt place)
  return (place.display, a)

/-- The attribute values of a key by name. A row stands for its own members at the places that its
members name, taken by size. -/
def attributes (key : Value) : Result (List (Text × Attribute)) :=
  match key with
  | .map es => Attribute.ofEntries (sortKeys es)
  | row => do
    let places ← Value.sort (← row.elements)
    return sortKeys (Entries.ofPairs (← places.mapM (placeEntry row)))

/-- The token of a key; none where there is no key. -/
def encode (key : Value) : Result (Option Text) :=
  if key.truthy then do return some (← ofText (.ofList (document (← attributes key)).write))
  else .ok none

/-- The members of a document that is used as a row. -/
def items : Json → Result (List Json)
  | .array js => .ok js
  | .object es => .ok (es.map fun e => .text e.1)
  | .text s => .ok (s.toList.map fun c => .text (Text.singleton c))
  | _ => .error .wrongType

def readBytes : Json → Result Value
  | .text s =>
    match s.chars?.bind Base64.decode with
    | some bs => .ok (.bytes bs)
    | none => .error (.badValue none)
  | _ => .error .wrongType

def isNaN : Json → Bool
  | .number (.float .nan) => true
  | _ => false

/-- The last of the members that are no number, which are all one thing, and every other member. -/
def withLastNaN : List Json → List Json
  | [] => []
  | j :: js => if isNaN j && js.any isNaN then withLastNaN js else j :: withLastNaN js

/-- The body of a set of texts. -/
def textsBody : Json → Value
  | .array js => (Json.array (withLastNaN js)).toValue
  | j => j.toValue

mutual

/-- The attribute value of a token in the form of requests; bodies that are kept as they are may be
of any type. -/
def unpack : Json → Result Value
  | .object [(tag, body)] =>
    match tag with
    | "B" => do return .map [("B", ← readBytes body)]
    | "BS" => do return .map [("BS", .list (← (← items body).mapM readBytes))]
    | "L" => do return .map [("L", .list (← unpackItems body))]
    | "M" => do return .map [("M", .map (← unpackMap body))]
    | "SS" => .ok (.map [("SS", textsBody body)])
    | "S" | "N" | "BOOL" | "NULL" | "NS" => .ok (.map [(tag, body.toValue)])
    | _ => .error (.badValue none)
  | _ => .error (.badValue none)

def unpackItems : Json → Result (List Value)
  | .array js => unpackAll js
  | .object [] | .text "" => .ok []
  | .object _ | .text _ => .error (.badValue none)
  | _ => .error .wrongType

def unpackMap : Json → Result Fields
  | .object es => unpackEntries es
  | _ => .error .noSuchPart

def unpackAll : List Json → Result (List Value)
  | [] => .ok []
  | j :: js => do
    let v ← unpack j
    return v :: (← unpackAll js)

def unpackEntries : List (Text × Json) → Result Fields
  | [] => .ok []
  | (k, j) :: es => do
    let v ← unpack j
    return (k, v) :: (← unpackEntries es)

end

def readEntries : List (Text × Json) → Result Fields
  | [] => .ok []
  | (k, j) :: es => do
    let v ← Attribute.decode (← unpack j)
    return (k, v) :: (← readEntries es)

/-- A fault met in reading a token, as the caller sees it. -/
def reported : Fault → Fault
  | .wrongType | .badValue _ | .noSuchKey => .refused .invalidToken
  | f => f

/-- The text inside a token, padded as its length asks. -/
def toText? (cs : List Char) : Option Text := do
  let padding := List.replicate ((4 - cs.length % 4) % 4) '='
  let bs ← Base64.decodeUrlSafe (cs ++ padding)
  Text.whole <$> String.fromUTF8? ⟨bs.toArray⟩

/-- The entries under "lastKey", if they are there and not empty. -/
def lastKey? (j : Json) : Option (List (Text × Json)) :=
  match j with
  | .object es =>
    match Entries.get? es "lastKey" with
    | some (.object []) => none
    | some (.object key) => some key
    | _ => none
  | _ => none

def decodeText (cs : List Char) : Result Fields :=
  match toText? cs with
  | none => refuse .invalidToken
  | some s =>
    match (Json.read s.toList).bind lastKey? with
    | none => refuse .invalidToken
    | some key => (readEntries key).mapError reported

/-- The key that a token stands for. A lone half of a surrogate pair is no blank and in no token. -/
def decode (token : Value) : Result Fields := do
  match (← (token.orElse (.text "")).shown).chars?.map Text.trim with
  | none | some [] => refuse .invalidToken
  | some cs => decodeText cs

end TableGateway.Token
