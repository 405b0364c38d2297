import TableGateway.Number.Exact
import TableGateway.Number.Shortest

/-!
# Numbers

The three written forms of a number, their exact values and their text.
-/
namespace TableGateway

/-- The three forms of a number; a truth value that counts as one has the first. -/
inductive Number where
  | int (n : Int)
  | float (x : Binary64)
  | decimal (d : Decimal)
  deriving DecidableEq, Repr, Inhabited

namespace Number

/-- The exact value, which a non-number has none of. -/
def exactForm? : Number → Option Exact
  | .int n => some (Exact.ofInt n)
  | .float x => Exact.ofBinary64? x
  | .decimal d => Exact.ofDecimal? d

def isZero : Number → Bool
  | .int n => n == 0
  | .float x => x.isZero
  | .decimal (.finite _ c _) => c == 0
  | .decimal _ => false

def text : Number → String
  | .int n => toString n
  | .float x => x.text
  | .decimal d => d.text

/-- The double that a text shows. -/
def readFloat? (s : String) : Option Binary64 :=
  (Decimal.read? s.toList).map fun
    | .finite s c e => .ofScientific s c e
    | .infinite s => .infinite s
    | .nan .. => .nan

end Number

end TableGateway
