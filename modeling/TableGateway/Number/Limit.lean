import TableGateway.Number.Order
import TableGateway.Number.Stored

/-!
# Numbers as limits

What is left of a limit when so many items have come, and the whole number that a limit amounts to.
A difference of decimals keeps 28 digits, to nearest with ties to even.
-/
namespace TableGateway.Number

/-- Digits kept by a difference of decimals. -/
def workingDigits : Nat := 28

/-- The largest exponent of the leading digit of a difference. -/
def workingTop : Int := 999999

/-- Keeps the leading working digits of a coefficient. -/
def shorten (negative : Bool) (c : Nat) (e : Int) : Decimal :=
  let count := (digitsOf c).length
  if count ≤ workingDigits then .finite negative c e
  else
    let extra := count - workingDigits
    let kept := roundHalfEven c (tenTo extra)
    if kept = tenTo workingDigits then .finite negative (kept / 10) (e + extra + 1)
    else .finite negative kept (e + extra)

/-- The exponent beyond which, in either direction, a count of up to twenty digits has no say in the
digits that are kept. -/
def reach : Nat := 60

/-- ± c · 10^e - n, the exponent at most `reach` and the sum of it and the length of c at least
`-reach`, times 10^lift. -/
def decimalMinus (negative : Bool) (c : Nat) (e : Int) (n lift : Nat) : Decimal :=
  let v : Int := (if negative then -(c : Int) else c) * (tenTo e.toNat)
    - (if n = 0 then 0 else n * tenTo (-e).toNat : Nat)
  shorten (v < 0) v.natAbs (min e 0 + lift)

def minusDecimal (negative : Bool) (c : Nat) (e : Int) (n : Nat) : Decimal :=
  if (reach : Int) < e then decimalMinus negative c reach n (e - reach).toNat
  else if n ≠ 0 ∧ e + (digitsOf c).length < -reach then decimalMinus negative (min c 1) (-reach) n 0
  else decimalMinus negative c e n 0

/-- A difference whose leading digit stands too high is none. -/
def withinTop (d : Decimal) : Except Decimal.Signal Decimal :=
  match d with
  | .finite _ c e => if workingTop < e + (digitsOf c).length - 1 then .error .overflow else .ok d
  | d => .ok d

/-- The difference from a count. -/
def minus : Number → Nat → Except Decimal.Signal Number
  | .int m, n => .ok (.int (m - n))
  | .float x, n => .ok (.float (x.minusNat n))
  | .decimal (.finite s c e), n => .decimal <$> withinTop (minusDecimal s c e n)
  | .decimal d, _ => .ok (.decimal d)

def atLeastOne (x : Number) : Number :=
  if x.order? (.int 1) = some .lt then .int 1 else x

/-- What is left of a limit after so many items, and at least one. -/
def left (limit : Number) (count : Nat) : Except Decimal.Signal Number :=
  atLeastOne <$> limit.minus count

/-- The least whole number that is not below a finite number above zero. -/
def ceil : Number → Nat
  | .int n => n.toNat
  | x => match x.toDecimal with
    | .finite _ c e => (c * tenTo e.toNat + tenTo (-e).toNat - 1) / tenTo (-e).toNat
    | _ => 0

/-- A number as a count, at most the given one; what is no number sets no bound of its own. -/
def countUpTo (most : Nat) (x : Number) : Nat :=
  if x.order? (.int most) = some .lt then x.ceil else most

end TableGateway.Number
