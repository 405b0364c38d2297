/-!
# Texts

A text is a row of code points. A string has those of characters only; a text can also hold halves of
surrogate pairs that stand alone, for which there is no encoding. So a text is a string, or a string up
to the first such half, the half, and the text after it.
-/
namespace TableGateway

/-- One of the halves of surrogate pairs, by its place among the 2048 of them. -/
abbrev Half := Fin 0x800

/-- A code point. -/
inductive Letter where
  | char (c : Char)
  | half (h : Half)
  deriving DecidableEq, Repr, Inhabited

namespace Letter

instance : Coe Char Letter := ⟨char⟩

def toNat : Letter → Nat
  | char c => c.toNat
  | half h => 0xd800 + h

/-- The code point of a number; what is none gives the zero. -/
def ofNat (n : Nat) : Letter :=
  if h : 0xd800 ≤ n ∧ n < 0xe000 then half ⟨n - 0xd800, by omega⟩ else char (Char.ofNat n)

@[simp] theorem ofNat_toNat (l : Letter) : ofNat l.toNat = l := by
  cases l with
  | char c =>
    have hvalid : c.toNat < 0xd800 ∨ 0xdfff < c.toNat := c.valid.imp_right And.left
    rw [ofNat, toNat, dif_neg (by omega), Char.ofNat_toNat]
  | half h =>
    rw [ofNat, dif_pos (by simp only [toNat]; omega)]
    simp [toNat]

/-- Code points are told apart by their numbers. -/
theorem toNat_inj {k l : Letter} (h : k.toNat = l.toNat) : k = l := by
  rw [← ofNat_toNat k, h, ofNat_toNat]

end Letter

/-- A string, or a string up to the first lone half, that half and the rest. -/
inductive Text where
  | whole (s : String)
  | broken (s : String) (half : Half) (rest : Text)
  deriving DecidableEq, Repr, Inhabited

namespace Text

instance : Coe String Text := ⟨whole⟩

def toList : Text → List Letter
  | whole s => s.toList.map .char
  | broken s h rest => s.toList.map .char ++ .half h :: rest.toList

def append : Text → Text → Text
  | whole s, whole t => whole (s ++ t)
  | whole s, broken t h rest => broken (s ++ t) h rest
  | broken s h rest, t => broken s h (rest.append t)

instance : Append Text := ⟨append⟩

/-- The text of a row of code points; it undoes `toList`. -/
def ofList : List Letter → Text
  | [] => whole ""
  | .char c :: ls => whole (String.singleton c) ++ ofList ls
  | .half h :: ls => broken "" h (ofList ls)

/-- The text of one code point. -/
def singleton (l : Letter) : Text := ofList [l]

/-- Texts in a row with another one between each two. -/
def intercalate (separator : Text) : List Text → Text
  | [] => ""
  | [t] => t
  | t :: ts => t ++ separator ++ intercalate separator ts

/-- Texts go by their code points. -/
instance : LT Text := ⟨fun s t => s.toList.map Letter.toNat < t.toList.map Letter.toNat⟩

instance : DecidableLT Text := fun s t =>
  inferInstanceAs (Decidable (s.toList.map Letter.toNat < t.toList.map Letter.toNat))

/-- Capital letters in lower case. -/
def toLower : Text → Text
  | whole s => whole s.toLower
  | broken s h rest => broken s.toLower h rest.toLower

/-- The characters of a text without lone halves. -/
def chars? : Text → Option (List Char)
  | whole s => some s.toList
  | broken .. => none

/-- The text in UTF-8, which has no place for a lone half. -/
def utf8? : Text → Option (List UInt8)
  | whole s => some s.toUTF8.data.toList
  | broken .. => none

@[simp] theorem toList_whole (s : String) : (whole s).toList = s.toList.map .char := rfl

theorem toList_empty : (whole "").toList = [] := rfl

@[simp] theorem whole_append_whole (s t : String) : whole s ++ whole t = whole (s ++ t) := rfl

theorem whole_append_broken (s t : String) (h : Half) (rest : Text) :
    whole s ++ broken t h rest = broken (s ++ t) h rest := rfl

theorem broken_append (s : String) (h : Half) (rest t : Text) :
    broken s h rest ++ t = broken s h (rest ++ t) := rfl

/-- A text is put behind another as the rows of code points are. -/
@[simp] theorem toList_append (s t : Text) : (s ++ t).toList = s.toList ++ t.toList := by
  induction s with
  | whole s => cases t <;> simp [whole_append_broken, toList]
  | broken s h rest ih => simp [broken_append, toList, ih]

@[simp] theorem toList_ofList (ls : List Letter) : (ofList ls).toList = ls := by
  induction ls with
  | nil => rfl
  | cons l ls ih => cases l <;> simp [ofList, toList, ih]

@[simp] theorem empty_append (t : Text) : whole "" ++ t = t := by
  cases t <;> simp [whole_append_broken]

theorem append_assoc (s t u : Text) : s ++ t ++ u = s ++ (t ++ u) := by
  induction s with
  | whole s => cases t <;> cases u <;> simp [whole_append_broken, broken_append, String.append_assoc]
  | broken s h rest ih => simp [broken_append, ih]

theorem whole_append_append (s t : String) (u : Text) :
    whole s ++ (whole t ++ u) = whole (s ++ t) ++ u := by
  rw [← append_assoc, whole_append_whole]

theorem ofList_chars_append (ls : List Letter) (cs : List Char) :
    ofList (cs.map .char ++ ls) = whole (String.ofList cs) ++ ofList ls := by
  induction cs with
  | nil => simp
  | cons c cs ih =>
    rw [String.ofList_cons, ← whole_append_whole, append_assoc, ← ih]
    rfl

@[simp] theorem ofList_toList (t : Text) : ofList t.toList = t := by
  induction t with
  | whole s =>
    have hchars := ofList_chars_append [] s.toList
    simpa [ofList] using hchars
  | broken s h rest ih => simp [toList, ofList_chars_append, ofList, ih, whole_append_broken]

/-- Texts are the same where their code points are, so each text has one form. -/
theorem toList_inj {s t : Text} : s.toList = t.toList ↔ s = t :=
  ⟨fun h => by rw [← ofList_toList s, h, ofList_toList], congrArg toList⟩

/-- Texts of the same numbers are the same. -/
theorem points_inj {s t : Text} (h : s.toList.map Letter.toNat = t.toList.map Letter.toNat) :
    s = t :=
  toList_inj.mp ((List.map_inj_right fun _ _ => Letter.toNat_inj).mp h)

theorem lt_asymm {s t : Text} (h : s < t) : ¬t < s := List.lt_asymm h

theorem lt_trans {s t u : Text} (h : s < t) (h' : t < u) : s < u := List.lt_trans h h'

/-- Of two different texts one comes first. -/
theorem lt_of_not_lt_of_ne {s t : Text} (h : ¬t < s) (hne : s ≠ t) : s < t := by
  refine Decidable.byContradiction fun hnot => hne ?_
  exact points_inj (List.le_antisymm (List.not_lt.mp h) (List.not_lt.mp hnot))

@[simp] theorem toList_eq_nil_iff {t : Text} : t.toList = [] ↔ t = "" := by
  rw [← toList_inj]
  simp

@[simp] theorem append_eq_empty_iff {s t : Text} : s ++ t = "" ↔ s = "" ∧ t = "" := by
  simp [← toList_eq_nil_iff]

@[simp] theorem append_right_inj (s : Text) {t u : Text} : s ++ t = s ++ u ↔ t = u := by
  simp [← toList_inj]

@[simp] theorem append_left_inj {s t : Text} (u : Text) : s ++ u = t ++ u ↔ s = t := by
  simp [← toList_inj]

@[simp] theorem append_empty (t : Text) : t ++ whole "" = t := by
  simp [← toList_inj]

@[simp] theorem toList_singleton (l : Letter) : (singleton l).toList = [l] := toList_ofList [l]

@[simp] theorem intercalate_nil (separator : Text) : intercalate separator [] = "" := rfl

@[simp] theorem intercalate_one (separator t : Text) : intercalate separator [t] = t := rfl

theorem intercalate_cons_cons (separator s t : Text) (ts : List Text) :
    intercalate separator (s :: t :: ts) = s ++ separator ++ intercalate separator (t :: ts) := rfl

/-- The code points of texts in a row, with those of the separator between each two. -/
theorem toList_intercalate (separator : Text) (ts : List Text) :
    (intercalate separator ts).toList = separator.toList.intercalate (ts.map toList) := by
  induction ts with
  | nil => rfl
  | cons t ts ih =>
    cases ts with
    | nil => simp [intercalate, List.intercalate]
    | cons u ts =>
      rw [intercalate_cons_cons, toList_append, toList_append, ih]
      simp [List.intercalate]

@[simp] theorem chars?_whole (s : String) : (whole s).chars? = some s.toList := rfl

@[simp] theorem utf8?_whole (s : String) : (whole s).utf8? = some s.toUTF8.data.toList := rfl

end Text

end TableGateway
