import TableGateway.Number.Binary64

/-!
# The shortest text of a double

Of the decimals that read back as the given double, the text shows one with the fewest digits and
of those the nearest. It is positional from 10^-4 up to below 10^16 and has an exponent of at
least two digits elsewhere. All comparisons are of exact ratios.
-/
namespace TableGateway.Binary64

/-- Is num / den at most d · 10^g? -/
def atMostGrid (num den d : Nat) (g : Int) : Bool :=
  if 0 ≤ g then num ≤ d * tenTo g.toNat * den else num * tenTo (-g).toNat ≤ d * den

def atLeastGrid (num den d : Nat) (g : Int) : Bool :=
  if 0 ≤ g then d * tenTo g.toNat * den ≤ num else d * den ≤ num * tenTo (-g).toNat

/-- The whole part of num / den in units of 10^g. -/
def gridFloor (num den : Nat) (g : Int) : Nat :=
  if 0 ≤ g then num / (den * tenTo g.toNat) else num * tenTo (-g).toNat / den

/-- The exponent of the leading decimal digit of a positive ratio. -/
def decade (num den : Nat) : Int :=
  let guess := (((num.log2 : Int) - den.log2) * 1233).fdiv 4096
  (([guess + 2, guess + 1, guess, guess - 1].find? (atLeastGrid num den 1)).getD (guess - 2))

/-- Without the zeros at its end; the exponent grows by as many as are dropped. -/
def dropZeros : Nat → Nat → Int → Nat × Int
  | 0, d, g => (d, g)
  | fuel + 1, d, g => if d ≠ 0 ∧ d % 10 = 0 then dropZeros fuel (d / 10) (g + 1) else (d, g)

/-- The decimal d · 10^g chosen for m · 2^e. -/
def shortest (m : Nat) (e : Int) : Nat × Int :=
  let below := if m = twoTo 52 ∧ -1074 < e then 1 else 2
  let (unit, den) := scaleTwo 1 (e - 2)
  let num := 4 * m * unit
  let low := (4 * m - below) * unit
  let high := (4 * m + 2) * unit
  let even := m % 2 = 0
  let inside (d : Nat) (g : Int) : Bool :=
    atMostGrid low den d g && atLeastGrid high den d g &&
      (even || !(atLeastGrid low den d g || atMostGrid high den d g))
  let top := decade num den
  let pick (k : Nat) : Option (Nat × Int) :=
    let g := top - k
    let d := gridFloor num den g
    match inside d g, inside (d + 1) g with
    | true, true =>
      if atLeastGrid (2 * num) den (2 * d + 1) g
          && !(atMostGrid (2 * num) den (2 * d + 1) g && d % 2 = 0) then some (d + 1, g)
      else some (d, g)
    | true, false => some (d, g)
    | false, true => some (d + 1, g)
    | false, false => none
  let (d, g) := ((List.range 17).findSome? pick).getD (gridFloor num den (top - 16), top - 16)
  dropZeros 20 d g

/-- Digits with the point after the given one. -/
def positional (digits : List Char) (top : Int) : List Char :=
  if top < 0 then '0' :: '.' :: List.replicate (-top - 1).toNat '0' ++ digits
  else
    let whole := top.toNat + 1
    if digits.length ≤ whole then digits ++ List.replicate (whole - digits.length) '0' ++ ['.', '0']
    else digits.take whole ++ '.' :: digits.drop whole

def scientific (digits : List Char) (top : Int) : List Char :=
  let fraction := match digits.drop 1 with
    | [] => []
    | rest => '.' :: rest
  let power := Nat.toDigits 10 top.natAbs
  digits.take 1 ++ fraction ++ ['e', if top < 0 then '-' else '+']
    ++ List.replicate (2 - power.length) '0' ++ power

def text : Binary64 → String
  | .nan => "nan"
  | .infinite s => if s then "-inf" else "inf"
  | .finite s m e =>
    let sign := if s then "-" else ""
    if m = 0 then sign ++ "0.0"
    else
      let (d, g) := shortest m e
      let digits := Nat.toDigits 10 d
      let top := g + digits.length - 1
      let body := if -4 ≤ top ∧ top < 16 then positional digits top else scientific digits top
      sign ++ String.ofList body

end TableGateway.Binary64
