import TableGateway.Text.Digit

/-!
# Decimal numbers

A decimal keeps its coefficient and exponent as they were written: 1.0 and 1.00 are two values that
compare equal. This module holds the type and its text in both directions; nothing here rounds.
-/
namespace TableGateway

inductive Decimal where
  | finite (negative : Bool) (coefficient : Nat) (exponent : Int)
  | infinite (negative : Bool)
  | nan (negative signaling : Bool) (payload : Nat)
  deriving DecidableEq, Repr, Inhabited

def digitsOf (n : Nat) : List Char := Nat.toDigits 10 n

/-- The number written by a list of digit values. -/
def ofDigits (ds : List Nat) : Nat := ds.foldl (fun n d => 10 * n + d) 0

namespace Decimal

def ofInt (n : Int) : Decimal := .finite (n < 0) n.natAbs 0

def signText (negative : Bool) : String := if negative then "-" else ""

/-- Plain while the exponent is not positive and at most five zeros follow the point, else with an
exponent after one digit. -/
def text : Decimal → String
  | .infinite s => signText s ++ "Infinity"
  | .nan s signaling payload =>
    signText s ++ (if signaling then "sNaN" else "NaN")
      ++ (if payload = 0 then "" else String.ofList (digitsOf payload))
  | .finite s c e =>
    let digits := digitsOf c
    let top := e + digits.length
    let point := if e ≤ 0 ∧ -6 < top then top else 1
    let body :=
      if point ≤ 0 then '0' :: '.' :: List.replicate (-point).toNat '0' ++ digits
      else if digits.length ≤ point.toNat then
        digits ++ List.replicate (point.toNat - digits.length) '0'
      else digits.take point.toNat ++ '.' :: digits.drop point.toNat
    let power := top - point
    let tail :=
      if power = 0 then []
      else 'E' :: (if power < 0 then '-' else '+') :: digitsOf power.natAbs
    signText s ++ String.ofList (body ++ tail)

/-- The digits at the front of a text and what follows them. -/
def takeDigits : List Char → List Nat × List Char
  | [] => ([], [])
  | c :: cs =>
    match Text.digitValue? c with
    | some d => let (ds, rest) := takeDigits cs; (d :: ds, rest)
    | none => ([], c :: cs)

def takeSign : List Char → Bool × List Char
  | '-' :: cs => (true, cs)
  | '+' :: cs => (false, cs)
  | cs => (false, cs)

/-- The exponent after a coefficient, or zero where the text ends. -/
def exponent? : List Char → Option Int
  | [] => some 0
  | c :: cs =>
    if c.toLower = 'e' then
      let (negative, cs) := takeSign cs
      match takeDigits cs with
      | (d :: ds, []) =>
        let n : Int := ofDigits (d :: ds)
        some (if negative then -n else n)
      | _ => none
    else none

def payload? (cs : List Char) : Option Nat :=
  match takeDigits cs with
  | (ds, []) => some (ofDigits ds)
  | _ => none

/-- The rest of a text after a word in any mixture of cases. -/
def afterWord? : (word : List Char) → List Char → Option (List Char)
  | [], cs => some cs
  | _ :: _, [] => none
  | w :: ws, c :: cs => if c.toLower = w then afterWord? ws cs else none

def special? (negative : Bool) (cs : List Char) : Option Decimal :=
  if afterWord? ['i', 'n', 'f'] cs = some [] ∨
      afterWord? ['i', 'n', 'f', 'i', 'n', 'i', 't', 'y'] cs = some [] then some (.infinite negative)
  else match afterWord? ['n', 'a', 'n'] cs, afterWord? ['s', 'n', 'a', 'n'] cs with
    | some rest, _ => (payload? rest).map (.nan negative false ·)
    | none, some rest => (payload? rest).map (.nan negative true ·)
    | none, none => none

/-- Reads sign, digits with at most one point, and exponent, or the word for an infinity or for no
number. Digits of any script count; blanks and separators do not. -/
def read? (cs : List Char) : Option Decimal :=
  let (negative, body) := takeSign cs
  let (whole, rest) := takeDigits body
  let (fraction, rest) := match rest with
    | '.' :: more => takeDigits more
    | _ => ([], rest)
  if whole.isEmpty && fraction.isEmpty then special? negative body
  else (exponent? rest).map fun e =>
    .finite negative (ofDigits (whole ++ fraction)) (e - fraction.length)

end Decimal

end TableGateway
