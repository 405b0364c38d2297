import TableGateway.Value.Basic

/-!
# Documents

A JSON document: numbers written without a fraction or exponent are whole, others are doubles.
-/
namespace TableGateway

/-- A document as it is read: an object keeps the order of its entries. -/
inductive Json where
  | null
  | bool (b : Bool)
  | number (n : Number)
  | text (s : Text)
  | array (items : List Json)
  | object (entries : List (Text × Json))
  deriving Repr, Inhabited

namespace Json

mutual

/-- A document as a value: rows become lists, and texts and numbers stay what they are. -/
def toValue : Json → Value
  | null => .null
  | bool b => .bool b
  | number n => .number n
  | text s => .text s
  | array js => .list (toValues js)
  | object es => .map (toEntries es)

def toValues : List Json → List Value
  | [] => []
  | j :: js => toValue j :: toValues js

def toEntries : List (Text × Json) → Fields
  | [] => []
  | (k, j) :: es => (k, toValue j) :: toEntries es

end

end Json

end TableGateway
