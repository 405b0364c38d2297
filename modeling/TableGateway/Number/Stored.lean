import TableGateway.Number.Binary64
import TableGateway.Number.Decimal

/-!
# Numbers that the store can hold

The store keeps 38 digits and exponents of the leading digit from -128 to 126, with subnormal
numbers down to 10^-165. A number goes in as it is or is refused; it is never rounded on the way.
-/
namespace TableGateway.Decimal

/-- Why a number cannot be held, the weightiest reason first. -/
inductive Signal where
  | overflow
  | underflow
  | inexact
  | rounded
  | clamped
  deriving DecidableEq, Repr

def maxDigits : Nat := 38

def topLimit : Int := 126

def normalLimit : Int := -128

/-- The exponent of the last digit of the smallest subnormal number. -/
def lastLimit : Int := normalLimit - (maxDigits - 1)

/-- Are the last n digits all zeros? A number with no more than n digits is not, unless it is 0. -/
def endsInZeros (c n : Nat) : Bool :=
  if (digitsOf c).length ≤ n then c == 0 else c % tenTo n == 0

def storedFinite (negative : Bool) (c : Nat) (e : Int) : Except Signal Decimal :=
  let count := (digitsOf c).length
  let top := e + count - 1
  if c = 0 then
    if e < lastLimit ∨ topLimit < e then .error .clamped else .ok (.finite negative c e)
  else if topLimit < top then .error .overflow
  else if e < lastLimit ∧ top < normalLimit then
    .error (if endsInZeros c (lastLimit - e).toNat then .rounded else .underflow)
  else if maxDigits < count then
    let extra := count - maxDigits
    if endsInZeros c extra then .error .rounded
    else if topLimit = top ∧ roundHalfEven c (tenTo extra) = tenTo maxDigits then .error .overflow
    else .error .inexact
  else .ok (.finite negative c e)

/-- A decimal as the store holds it; infinities and non-numbers pass, a payload that is too long
does not. -/
def stored : Decimal → Except Signal Decimal
  | .finite s c e => storedFinite s c e
  | .infinite s => .ok (.infinite s)
  | .nan s signaling payload =>
    .ok (if payload < tenTo maxDigits then .nan s signaling payload else .nan false false 0)

end TableGateway.Decimal
