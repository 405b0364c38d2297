import TableGateway.Json.Basic

/-!
# Reading documents

Every reader takes the characters that are left and gives back what it read with the rest. Blanks may
stand between any two parts; a control character may not stand in a text as it is. A key that comes
twice has the last of its values, in the first place. An escape for half of a surrogate pair that stands
alone is read as that half.
-/
namespace TableGateway.Json

def isBlank (c : Letter) : Bool := c = ' ' || c = '\t' || c = '\n' || c = '\r'

def skipBlank (cs : List Letter) : List Letter := cs.dropWhile isBlank

/-- The rest of a text after a given word. -/
def after? : (word : List Letter) → List Letter → Option (List Letter)
  | [], cs => some cs
  | _ :: _, [] => none
  | w :: ws, c :: cs => if c = w then after? ws cs else none

def isDigit (c : Letter) : Bool := 48 ≤ c.toNat && c.toNat ≤ 57

def hexValue? (c : Letter) : Option Nat :=
  if isDigit c then some (c.toNat - 48)
  else if 97 ≤ c.toNat && c.toNat ≤ 102 then some (c.toNat - 87)
  else if 65 ≤ c.toNat && c.toNat ≤ 70 then some (c.toNat - 55)
  else none

def hexFour? (a b c d : Letter) : Option Nat := do
  return (((← hexValue? a) * 16 + (← hexValue? b)) * 16 + (← hexValue? c)) * 16 + (← hexValue? d)

def isHighHalf (n : Nat) : Bool := 0xd800 ≤ n && n < 0xdc00

def isLowHalf (n : Nat) : Bool := 0xdc00 ≤ n && n < 0xe000

def pairChar (high low : Nat) : Char := Char.ofNat (0x10000 + (high - 0xd800) * 0x400 + (low - 0xdc00))

/-- The code point of a unit, which takes a low half behind a high one with it. -/
def unitWith (n : Nat) : List Letter → Option (Letter × List Letter)
  | '\\' :: 'u' :: a :: b :: c :: d :: rest =>
    if isHighHalf n then do
      let low ← hexFour? a b c d
      if isLowHalf low then return (pairChar n low, rest)
      return (Letter.ofNat n, '\\' :: 'u' :: a :: b :: c :: d :: rest)
    else some (Letter.ofNat n, '\\' :: 'u' :: a :: b :: c :: d :: rest)
  | rest => some (Letter.ofNat n, rest)

def shortEscape? : Letter → Option Letter
  | '"' => some '"'
  | '\\' => some '\\'
  | '/' => some '/'
  | 'b' => some (Char.ofNat 8)
  | 'f' => some (Char.ofNat 12)
  | 'n' => some '\n'
  | 'r' => some '\r'
  | 't' => some '\t'
  | _ => none

/-- What stands after a backslash. -/
def escaped? : List Letter → Option (Letter × List Letter)
  | 'u' :: a :: b :: c :: d :: rest => do unitWith (← hexFour? a b c d) rest
  | e :: rest => (shortEscape? e).map (·, rest)
  | [] => none

/-- The code points of a text after its opening quote, and what follows the closing one. -/
def readText : (fuel : Nat) → List Letter → Option (List Letter × List Letter)
  | 0, _ => none
  | fuel + 1, cs =>
    match cs with
    | [] => none
    | '"' :: rest => some ([], rest)
    | '\\' :: rest => do
      let (c, rest) ← escaped? rest
      let (s, rest) ← readText fuel rest
      return (c :: s, rest)
    | c :: rest =>
      if c.toNat < 0x20 then none
      else do
        let (s, rest) ← readText fuel rest
        return (c :: s, rest)

def natOf (ds : List Letter) : Nat := ds.foldl (fun n c => 10 * n + (c.toNat - 48)) 0

/-- The most digits that a whole number may have. -/
def maxIntDigits : Nat := 4300

/-- Digits after a point, if at least one follows it. -/
def readFraction (cs : List Letter) : List Letter × List Letter :=
  match cs with
  | '.' :: rest =>
    match rest.takeWhile isDigit with
    | [] => ([], cs)
    | ds => (ds, rest.dropWhile isDigit)
  | _ => ([], cs)

def readSign : List Letter → Bool × List Letter
  | '-' :: cs => (true, cs)
  | '+' :: cs => (false, cs)
  | cs => (false, cs)

/-- An exponent, if at least one digit stands in it. -/
def readExponent (cs : List Letter) : Option Int × List Letter :=
  match cs with
  | c :: rest =>
    if c = 'e' || c = 'E' then
      let (negative, rest) := readSign rest
      match rest.takeWhile isDigit with
      | [] => (none, cs)
      | ds =>
        let n : Int := natOf ds
        (some (if negative then -n else n), rest.dropWhile isDigit)
    else (none, cs)
  | [] => (none, cs)

/-- The digits before point and exponent: a zero alone or digits that do not begin with one. -/
def readWhole (cs : List Letter) : Option (List Letter × List Letter) :=
  match cs with
  | '0' :: rest => some (['0'], rest)
  | _ => match cs.takeWhile isDigit with
    | [] => none
    | ds => some (ds, cs.dropWhile isDigit)

def readNumber (negative : Bool) (cs : List Letter) : Option (Json × List Letter) := do
  let (whole, rest) ← readWhole cs
  let (fraction, rest) := readFraction rest
  let (power, rest) := readExponent rest
  if fraction.isEmpty && power.isNone then
    if maxIntDigits < whole.length then none
    else
      let n : Int := natOf whole
      return (number (.int (if negative then -n else n)), rest)
  else
    let x := Binary64.ofScientific negative (natOf (whole ++ fraction))
      (power.getD 0 - fraction.length)
    return (number (.float x), rest)

/-- Words and numbers: everything that holds no other document. -/
def readAtom (cs : List Letter) : Option (Json × List Letter) :=
  match cs with
  | 'n' :: _ => (after? ['n', 'u', 'l', 'l'] cs).map (null, ·)
  | 't' :: _ => (after? ['t', 'r', 'u', 'e'] cs).map (bool true, ·)
  | 'f' :: _ => (after? ['f', 'a', 'l', 's', 'e'] cs).map (bool false, ·)
  | 'N' :: _ => (after? ['N', 'a', 'N'] cs).map (number (.float .nan), ·)
  | 'I' :: _ =>
    (after? ['I', 'n', 'f', 'i', 'n', 'i', 't', 'y'] cs).map (number (.float (.infinite false)), ·)
  | '-' :: 'I' :: _ =>
    (after? ['-', 'I', 'n', 'f', 'i', 'n', 'i', 't', 'y'] cs).map
      (number (.float (.infinite true)), ·)
  | '-' :: rest => readNumber true rest
  | _ => readNumber false cs

mutual

def readValue : (fuel : Nat) → List Letter → Option (Json × List Letter)
  | 0, _ => none
  | fuel + 1, cs =>
    match cs with
    | '"' :: rest => do
      let (s, rest) ← readText fuel rest
      return (text (Text.ofList s), rest)
    | '[' :: rest =>
      match skipBlank rest with
      | ']' :: rest => some (array [], rest)
      | rest => do
        let (js, rest) ← readItems fuel rest
        return (array js, rest)
    | '{' :: rest =>
      match skipBlank rest with
      | '}' :: rest => some (object [], rest)
      | rest => do
        let (es, rest) ← readEntries fuel rest
        return (object (Entries.ofPairs es), rest)
    | _ => readAtom cs

/-- Items up to the closing bracket; at least one. -/
def readItems : (fuel : Nat) → List Letter → Option (List Json × List Letter)
  | 0, _ => none
  | fuel + 1, cs => do
    let (j, rest) ← readValue fuel cs
    match skipBlank rest with
    | ']' :: rest => return ([j], rest)
    | ',' :: rest => do
      let (js, rest) ← readItems fuel (skipBlank rest)
      return (j :: js, rest)
    | _ => none

/-- Entries up to the closing brace; at least one. -/
def readEntries : (fuel : Nat) → List Letter → Option (List (Text × Json) × List Letter)
  | 0, _ => none
  | fuel + 1, cs =>
    match cs with
    | '"' :: rest => do
      let (key, rest) ← readText fuel rest
      match skipBlank rest with
      | ':' :: rest => do
        let (j, rest) ← readValue fuel (skipBlank rest)
        match skipBlank rest with
        | '}' :: rest => return ([(Text.ofList key, j)], rest)
        | ',' :: rest => do
          let (es, rest) ← readEntries fuel (skipBlank rest)
          return ((Text.ofList key, j) :: es, rest)
        | _ => none
      | _ => none
    | _ => none

end

/-- A whole text as one document; each reader takes a character before it calls another. -/
def read (cs : List Letter) : Option Json := do
  let (j, rest) ← readValue (2 * cs.length + 2) (skipBlank cs)
  if (skipBlank rest).isEmpty then some j else none

end TableGateway.Json
