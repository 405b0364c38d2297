import TableGateway.Value.Basic
import TableGateway.Text.Quoted

/-!
# Values as text

Two texts: the literal, in which text is quoted, used inside messages and for everything inside a
container; and the display, which shows a text as it is. Bytes in the store's wrapper can be shown
inside a message or a container only.
-/
namespace TableGateway.Value

/-- A row of texts between brackets; one alone in a tuple has a comma after it. -/
def bracketed (left right : Text) (items : List Text) : Text :=
  left ++ Text.intercalate ", " items ++ right

def tupleText : List Text → Text
  | [item] => "(" ++ item ++ ",)"
  | items => bracketed "(" ")" items

def setText (frozen : Bool) (items : List Text) : Text :=
  match frozen, items with
  | false, [] => "set()"
  | true, [] => "frozenset()"
  | false, items => bracketed "\x7b" "\x7d" items
  | true, items => bracketed "frozenset(\x7b" "\x7d)" items

/-- Bytes as they are shown: those that can grow and those in the wrapper say so. -/
def blobText (b : Blob) : Text :=
  let plain := Text.quotedBytes b.mutable b.bytes
  let row := if b.mutable then "bytearray(" ++ plain ++ ")" else plain
  if b.wrapped then "Binary(" ++ row ++ ")" else row

def numberText : Number → Text
  | .decimal d => "Decimal('" ++ d.text ++ "')"
  | n => n.text

/-- The name of the family to which a record's field belongs, where it is a member of one. -/
def family? : RecordKind → Text → Option Text
  | .condition, "operation" => some "Operation"
  | .rangeKey, "operation" => some "Operation"
  | .atomicOperation, "type" => some "AtomicOperationType"
  | _, _ => none

def memberText (family : Text) (name : String) : Text :=
  "<" ++ family ++ "." ++ name.toUpper ++ ": " ++ Text.quoted name ++ ">"

mutual

/-- A value as it is shown in messages and log lines. -/
def literal : Value → Text
  | .null => "None"
  | .bool b => if b then "True" else "False"
  | .number n => numberText n
  | .text s => Text.quoted s
  | .blob b => blobText b
  | .list xs => bracketed "[" "]" (literals xs)
  | .tuple xs => tupleText (literals xs)
  | .set frozen xs => setText frozen (literals xs)
  | .map es => bracketed "\x7b" "\x7d" (entryLiterals es)
  | .anything => "ANY"
  | .object _ => "<object>"
  | .record kind fields =>
    bracketed (kind.typeName ++ "(") ")" (fieldLiterals kind kind.fieldNames fields)

def literals : List Value → List Text
  | [] => []
  | x :: xs => literal x :: literals xs

def entryLiterals : List (Text × Value) → List Text
  | [] => []
  | (k, v) :: es => (Text.quoted k ++ ": " ++ literal v) :: entryLiterals es

def fieldLiterals (kind : RecordKind) (names : List Text) : List Value → List Text
  | [] => []
  | v :: vs =>
    let name := names.headD ""
    let shown := match family? kind name, v with
      | some family, .text (.whole s) => memberText family s
      | _, v => literal v
    (name ++ "=" ++ shown) :: fieldLiterals kind names.tail vs

end

/-- The text that a token is made of: a text stands for itself. -/
def display : Value → Text
  | .text s => s
  | .number (.decimal d) => d.text
  | v => literal v

/-- Can the value be displayed on its own? -/
def hasDisplay : Value → Bool
  | .blob b => !b.wrapped
  | _ => true

end TableGateway.Value
