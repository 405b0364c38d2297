/-!
# Base64

Three bytes are written as four characters of an alphabet of 64, with '=' in the places that are not
used at the end. The reader is lenient: it skips characters outside the alphabet, it passes over '='
except where that completes a group of which two characters were read, and there it stops.
-/
namespace TableGateway.Base64

/-- The last two characters of an alphabet; the others are letters and digits. -/
structure Alphabet where
  plus : Char
  slash : Char

def standard : Alphabet := ⟨'+', '/'⟩

def urlSafe : Alphabet := ⟨'-', '_'⟩

/-- The character for a value below 64. -/
def digit (a : Alphabet) (n : Nat) : Char :=
  if n < 26 then Char.ofNat (n + 65)
  else if n < 52 then Char.ofNat (n + 71)
  else if n < 62 then Char.ofNat (n - 4)
  else if n = 62 then a.plus
  else a.slash

/-- The value of a character of the standard alphabet. -/
def value? (c : Char) : Option Nat :=
  let n := c.toNat
  if 65 ≤ n ∧ n ≤ 90 then some (n - 65)
  else if 97 ≤ n ∧ n ≤ 122 then some (n - 71)
  else if 48 ≤ n ∧ n ≤ 57 then some (n + 4)
  else if c = '+' then some 62
  else if c = '/' then some 63
  else none

def encode (a : Alphabet) : List UInt8 → List Char
  | [] => []
  | [x] =>
    let x := x.toNat
    [digit a (x / 4), digit a (x % 4 * 16), '=', '=']
  | [x, y] =>
    let x := x.toNat
    let y := y.toNat
    [digit a (x / 4), digit a (x % 4 * 16 + y / 16), digit a (y % 16 * 4), '=']
  | x :: y :: z :: rest =>
    let i := x.toNat
    let j := y.toNat
    let k := z.toNat
    digit a (i / 4) :: digit a (i % 4 * 16 + j / 16) :: digit a (j % 16 * 4 + k / 64)
      :: digit a (k % 64) :: encode a rest

/-- How far the reader is in a group of four; the bits that no byte has taken yet are carried. -/
inductive Group where
  | none
  | one (left : Nat)
  | two (left : Nat)
  | three (left : Nat)

namespace Group

def count : Group → Nat
  | none => 0
  | one _ => 1
  | two _ => 2
  | three _ => 3

/-- The group with one more value read, and the byte that this completes. -/
def push : Group → Nat → Group × Option UInt8
  | none, v => (one v, Option.none)
  | one left, v => (two (v % 16), some (UInt8.ofNat (left * 4 + v / 16)))
  | two left, v => (three (v % 4), some (UInt8.ofNat (left * 16 + v / 4)))
  | three left, v => (none, some (UInt8.ofNat (left * 64 + v)))

end Group

/-- Reads on in a group in which so many '=' came one after the other. -/
def readFrom (g : Group) (pads : Nat) : List Char → Option (List UInt8)
  | [] => if g.count = 0 then some [] else Option.none
  | c :: cs =>
    if c = '=' then
      if 2 ≤ g.count then
        if 4 ≤ g.count + (pads + 1) then some [] else readFrom g (pads + 1) cs
      else readFrom g pads cs
    else match value? c with
      | Option.none => readFrom g pads cs
      | some v =>
        let (g', byte) := g.push v
        (readFrom g' 0 cs).map (byte.toList ++ ·)

/-- The bytes of a text; none if it holds a character beyond ASCII or ends inside a group. -/
def decode (cs : List Char) : Option (List UInt8) :=
  if cs.all (·.toNat < 128) then readFrom .none 0 cs else Option.none

/-- The same with the last two characters of the URL-safe alphabet read as well. -/
def decodeUrlSafe (cs : List Char) : Option (List UInt8) :=
  decode (cs.map fun c => if c = '-' then '+' else if c = '_' then '/' else c)

end TableGateway.Base64
