import TableGateway.Number.Binary64
import TableGateway.Number.Decimal

/-!
# Exact values of numbers

Whole numbers, doubles and decimals are all of the form ± c · 2^a · 5^b. With c prime to ten the form
is unique, so two numbers are equal when their forms are. What is no number has no form.
-/
namespace TableGateway

/-- The value of a number in one form, whatever it was written as. -/
inductive Exact where
  | zero
  | finite (negative : Bool) (core : Nat) (twos fives : Int)
  | infinite (negative : Bool)
  deriving DecidableEq, Repr

/-- How often p divides n, and the rest of n; looks at most `fuel` times. -/
def splitOff (p : Nat) : (fuel : Nat) → Nat → Nat × Nat
  | 0, n => (0, n)
  | fuel + 1, n =>
    if n % p = 0 then let (k, r) := splitOff p fuel (n / p); (k + 1, r) else (0, n)

namespace Exact

/-- The form of ± c · 2^a · 5^b. -/
def of (negative : Bool) (c : Nat) (a b : Int) : Exact :=
  if c = 0 then .zero
  else
    let (twos, c') := splitOff 2 (c.log2 + 1) c
    let (fives, core) := splitOff 5 (c'.log2 + 1) c'
    .finite negative core (a + twos) (b + fives)

def ofInt (n : Int) : Exact := of (n < 0) n.natAbs 0 0

def ofBinary64? : Binary64 → Option Exact
  | .finite s m e => some (of s m e 0)
  | .infinite s => some (.infinite s)
  | .nan => none

def ofDecimal? : Decimal → Option Exact
  | .finite s c e => some (of s c e e)
  | .infinite s => some (.infinite s)
  | .nan .. => none

end Exact

end TableGateway
