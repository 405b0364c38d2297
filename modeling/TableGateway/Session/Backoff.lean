import TableGateway.Fault
import TableGateway.Number.Order

/-!
# Waiting between requests

The wait after the n-th request is a hundredth of a second times two to the n, at most one second. The
power is a double of its own, so there is no wait from the 1024th on.
-/
namespace TableGateway.Backoff

def base : Binary64 := Binary64.ofRatio false 1 100

def longest : Binary64 := Binary64.ofRatio false 1 1

/-- The exponents from which on a power of two is no double. -/
def powerLimit : Int := 1024

/-- The exponent below which a power of two is zero. -/
def leastPower : Int := -1074

/-- Whole numbers of this size and more are no doubles, neither as exponents. -/
def wholeLimit : Int := twoTo 1024 - twoTo 970

def scaled (n : Int) : Binary64 := if n < leastPower then Binary64.zero false else base.timesTwoPow n

def seconds (n : Int) : Result Binary64 :=
  if powerLimit ≤ n ∨ n ≤ -wholeLimit then .error .outOfRange
  else
    let s := scaled n
    .ok (if (Number.int 1).lessThan (.float s) then longest else s)

end TableGateway.Backoff
