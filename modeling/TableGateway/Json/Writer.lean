import TableGateway.Json.Basic
import TableGateway.Text.Quoted

/-!
# Writing documents

The compact form: no blanks, entries in their order, and in a text only the quote, the backslash and
control characters escaped.
-/
namespace TableGateway.Json

/-- The quote, the backslash and control characters are escaped; everything else stands as it is,
lone halves too. -/
def escapeLetter (c : Letter) : List Letter :=
  let n := c.toNat
  if c = '"' then ['\\', '"']
  else if c = '\\' then ['\\', '\\']
  else if n = 8 then ['\\', 'b']
  else if n = 9 then ['\\', 't']
  else if n = 10 then ['\\', 'n']
  else if n = 12 then ['\\', 'f']
  else if n = 13 then ['\\', 'r']
  else if n < 0x20 then '\\' :: 'u' :: (Text.hex 4 n).map .char
  else [c]

def writeText (s : Text) : List Letter := .char '"' :: s.toList.flatMap escapeLetter ++ [.char '"']

/-- What is no number has a name, which the reader knows. -/
def writeNumber : Number → List Letter
  | .float .nan => ['N', 'a', 'N']
  | .float (.infinite false) => ['I', 'n', 'f', 'i', 'n', 'i', 't', 'y']
  | .float (.infinite true) => ['-', 'I', 'n', 'f', 'i', 'n', 'i', 't', 'y']
  | n => n.text.toList.map .char

mutual

/-- The row of code points of a document. -/
def write : Json → List Letter
  | null => ['n', 'u', 'l', 'l']
  | bool true => ['t', 'r', 'u', 'e']
  | bool false => ['f', 'a', 'l', 's', 'e']
  | number n => writeNumber n
  | text s => writeText s
  | array js => .char '[' :: writeItems js ++ [.char ']']
  | object es => .char '{' :: writeEntries es ++ [.char '}']

def writeItems : List Json → List Letter
  | [] => []
  | [j] => write j
  | j :: js => write j ++ .char ',' :: writeItems js

def writeEntries : List (Text × Json) → List Letter
  | [] => []
  | [(k, j)] => writeText k ++ .char ':' :: write j
  | (k, j) :: es => writeText k ++ .char ':' :: write j ++ .char ',' :: writeEntries es

end

end TableGateway.Json
