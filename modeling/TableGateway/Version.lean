import TableGateway.Json.Reader
import TableGateway.Text.Digit
import TableGateway.Fault

/-!
# Versions

A release candidate is written 1.2.3-rc.4 or 1.2.3-rc4 in the version document and 1.2.3rc4 as the
version of the package; every other text stays as it is.
-/
namespace TableGateway.Version

/-- Digits of any script, at least one, and what follows them. -/
def number? (cs : List Char) : Option (List Char × List Char) :=
  match cs.takeWhile Text.isDigit with
  | [] => none
  | ds => some (ds, cs.dropWhile Text.isDigit)

def dot? : List Char → Option (List Char)
  | '.' :: cs => some cs
  | _ => none

/-- Three numbers with dots between them. -/
def triple? (cs : List Char) : Option (List Char × List Char) := do
  let (a, cs) ← number? cs
  let cs ← dot? cs
  let (b, cs) ← number? cs
  let cs ← dot? cs
  let (c, cs) ← number? cs
  return (a ++ '.' :: b ++ '.' :: c, cs)

/-- The number of a candidate, in ASCII digits to the end of the text or of its only line. -/
def candidate? (cs : List Char) : Option (List Char) :=
  match cs.takeWhile Char.isDigit, cs.dropWhile Char.isDigit with
  | [], _ => none
  | ds, [] | ds, ['\n'] => some ds
  | _, _ => none

def afterMark? : List Char → Option (List Char)
  | '-' :: 'r' :: 'c' :: '.' :: cs => some cs
  | '-' :: 'r' :: 'c' :: cs => some cs
  | _ => none

def normalize (t : Text) : Text :=
  let short := do
    let (release, cs) ← triple? (← t.chars?)
    let ds ← candidate? (← afterMark? cs)
    return Text.whole (String.ofList (release ++ 'r' :: 'c' :: ds))
  short.getD t

/-- Stands for a version that is missing. -/
def unknown : Text := "0.0.0"

/-- The version in the version document, which may be missing. -/
def read (document : Option Text) : Result Text :=
  match document.bind fun s => Json.read s.toList with
  | none => .ok unknown
  | some (.object es) =>
    match Entries.get? es "version" with
    | some (.text s) => .ok (if s = "" then unknown else s)
    | _ => .ok unknown
  | some _ => .error .noSuchPart

/-- The version document of this package. -/
def document : Text := "\x7b\"version\": \"0.1.0\"\x7d"

end TableGateway.Version
