import TableGateway.Number.Basic

/-!
# Order of numbers

Numbers of all three forms are ordered by their exact values, for which each is taken as a decimal.
What is no number has no place in the order.
-/
namespace TableGateway

namespace Decimal

/-- How often two divides m; looks at most `fuel` times. -/
def countTwos : (fuel : Nat) → Nat → Nat
  | 0, _ => 0
  | fuel + 1, m => if m % 2 = 0 then countTwos fuel (m / 2) + 1 else 0

/-- The exact decimal value of a double. -/
def ofBinary64 : Binary64 → Decimal
  | .nan => .nan false false 0
  | .infinite s => .infinite s
  | .finite s m e =>
    if 0 ≤ e then .finite s (m * twoTo e.toNat) 0
    else
      let twos := min (-e).toNat (if m = 0 then (-e).toNat else countTwos (-e).toNat m)
      let places := (-e).toNat - twos
      .finite s (m / twoTo twos * fiveTo places) (-(places : Int))

/-- Order of c · 10^e and d · 10^f, neither of them zero. The number of digits before the point
decides; only where it is the same are the digits compared. -/
def orderScaled (c : Nat) (e : Int) (d : Nat) (f : Int) : Ordering :=
  match compare (e + (digitsOf c).length) (f + (digitsOf d).length) with
  | .eq => compare (c * tenTo (e - min e f).toNat) (d * tenTo (f - min e f).toNat)
  | o => o

def orderFinite (s : Bool) (c : Nat) (e : Int) (t : Bool) (d : Nat) (f : Int) : Ordering :=
  match c, d, s, t with
  | 0, 0, _, _ => .eq
  | 0, _, _, t => if t then .gt else .lt
  | _, 0, s, _ => if s then .lt else .gt
  | c, d, false, false => orderScaled c e d f
  | c, d, true, true => orderScaled d f c e
  | _, _, s, _ => if s then .lt else .gt

def order? : Decimal → Decimal → Option Ordering
  | .nan .., _ | _, .nan .. => none
  | .infinite s, .infinite t => some (compare t s)
  | .infinite s, .finite .. => some (if s then .lt else .gt)
  | .finite .., .infinite t => some (if t then .gt else .lt)
  | .finite s c e, .finite t d f => some (orderFinite s c e t d f)

end Decimal

namespace Number

def toDecimal : Number → Decimal
  | .int n => .ofInt n
  | .float x => .ofBinary64 x
  | .decimal d => d

def order? : Number → Number → Option Ordering
  | .int m, .int n => some (compare m n)
  | x, y => x.toDecimal.order? y.toDecimal

def lessThan (x y : Number) : Bool := x.order? y = some .lt

def isDecimal : Number → Bool
  | .decimal _ => true
  | _ => false

/-- A decimal that is no number and objects to every comparison with a number. -/
def isSignaling : Number → Bool
  | .decimal (.nan _ signaling _) => signaling
  | _ => false

end Number

end TableGateway
