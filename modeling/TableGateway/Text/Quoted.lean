import TableGateway.Text.Basic
import TableGateway.Text.Printable

/-!
# Quoted text and bytes

A text stands between apostrophes, or between double quotes when it holds an apostrophe and no
double quote. The quote in use and the backslash are escaped; so is all that is not printable.
-/
namespace TableGateway.Text

def apostrophe : Char := Char.ofNat 39

def backslash : Char := Char.ofNat 92

def hexDigit (n : Nat) : Char := Nat.digitChar (n % 16)

/-- The last `width` hexadecimal digits of a number. -/
def hex : (width : Nat) → Nat → List Char
  | 0, _ => []
  | w + 1, n => hex w (n / 16) ++ [hexDigit n]

/-- The short escape of a control character that has one. -/
def shortEscape? (n : Nat) : Option Char :=
  if n = 9 then some 't' else if n = 10 then some 'n' else if n = 13 then some 'r' else none

def escape (quote c : Char) : List Char :=
  let n := c.toNat
  if c = quote ∨ c = backslash then [backslash, c]
  else match shortEscape? n with
    | some e => [backslash, e]
    | none =>
      if isPrintable c then [c]
      else if n < 0x100 then backslash :: 'x' :: hex 2 n
      else if n < 0x10000 then backslash :: 'u' :: hex 4 n
      else backslash :: 'U' :: hex 8 n

/-- A code point inside quotes; half of a pair is never printable. -/
def escapeLetter (quote : Char) : Letter → List Char
  | .char c => escape quote c
  | .half h => backslash :: 'u' :: hex 4 (Letter.half h).toNat

def quoteFor (hasApostrophe hasDouble : Bool) : Char :=
  if hasApostrophe && !hasDouble then '"' else apostrophe

def quoted (t : Text) : Text :=
  let ls := t.toList
  let quote := quoteFor (ls.contains (.char apostrophe)) (ls.contains (.char '"'))
  String.ofList (quote :: ls.flatMap (escapeLetter quote) ++ [quote])

def escapeByte (escaped : Char) (b : UInt8) : List Char :=
  let n := b.toNat
  let c := Char.ofNat n
  if c = escaped ∨ c = backslash then [backslash, c]
  else match shortEscape? n with
    | some e => [backslash, e]
    | none => if 0x20 ≤ n ∧ n < 0x7f then [c] else backslash :: 'x' :: hex 2 n

/-- In a row that can grow an apostrophe is escaped within either quote. -/
def quotedBytes (mutable : Bool) (bytes : List UInt8) : Text :=
  let quote := quoteFor (bytes.contains 39) (bytes.contains 34)
  let escaped := if mutable then apostrophe else quote
  String.ofList ('b' :: quote :: bytes.flatMap (escapeByte escaped) ++ [quote])

end TableGateway.Text
