import TableGateway.Number.Power

/-!
# Double-precision numbers

A number is ± m · 2^e with m below 2^53 and e at least -1074, m being as large as that allows, or
an infinity, or no number at all. Every rounding here is that of one exact ratio to its nearest
double, a tie going to the even neighbour; no operation of the machine's own arithmetic is used.
-/
namespace TableGateway

inductive Binary64 where
  | finite (negative : Bool) (mantissa : Nat) (exponent : Int)
  | infinite (negative : Bool)
  | nan
  deriving DecidableEq, Repr, Inhabited

/-- The whole number nearest to a ratio, the even one of two. -/
def roundHalfEven (num den : Nat) : Nat :=
  let whole := num / den
  let rest := num % den
  if den < 2 * rest ∨ (den = 2 * rest ∧ whole % 2 = 1) then whole + 1 else whole

/-- Numerator and denominator of n · 2^e. -/
def scaleTwo (n : Nat) (e : Int) : Nat × Nat :=
  if 0 ≤ e then (n * twoTo e.toNat, 1) else (n, twoTo (-e).toNat)

namespace Binary64

def zero (negative : Bool) : Binary64 := .finite negative 0 (-1074)

/-- The double nearest to num / den; beyond the largest one stands an infinity. -/
def ofRatio (negative : Bool) (num den : Nat) : Binary64 :=
  if num = 0 then zero negative
  else
    let low : Int := (num.log2 : Int) - den.log2 - 53
    let fits (q : Int) : Bool :=
      let (n, d) := scaleTwo num (-q)
      n / (d * den) < twoTo 53
    let q := max (-1074) (if fits low then low else low + 1)
    let (n, d) := scaleTwo num (-q)
    let m := roundHalfEven n (d * den)
    let (m, q) := if m = twoTo 53 then (twoTo 52, q + 1) else (m, q)
    if 971 < q then .infinite negative else .finite negative m q

/-- The double nearest to ± c · 10^e. -/
def ofScientific (negative : Bool) (coefficient : Nat) (exponent : Int) : Binary64 :=
  let top := exponent + (Nat.toDigits 10 coefficient).length
  if coefficient = 0 ∨ top < -400 then zero negative
  else if 400 < top then .infinite negative
  else if 0 ≤ exponent then ofRatio negative (coefficient * tenTo exponent.toNat) 1
  else ofRatio negative coefficient (tenTo (-exponent).toNat)

/-- Sign, numerator and denominator of a finite number. -/
def ratio? : Binary64 → Option (Bool × Nat × Nat)
  | .finite s m e => some (s, scaleTwo m e)
  | _ => none

def isZero : Binary64 → Bool
  | .finite _ m _ => m == 0
  | _ => false

/-- The double nearest to x · 2^k. -/
def timesTwoPow (x : Binary64) (k : Int) : Binary64 :=
  match x with
  | .finite s m e => let (n, d) := scaleTwo m (e + k); ofRatio s n d
  | x => x

/-- The double nearest to x - n. -/
def minusNat (x : Binary64) (n : Nat) : Binary64 :=
  match x.ratio? with
  | none => x
  | some (s, num, den) =>
    let v : Int := (if s then -(num : Int) else num) - (n * den : Nat)
    if v = 0 then zero (s && num == 0 && n == 0) else ofRatio (v < 0) v.natAbs den

end Binary64

end TableGateway
