import TableGateway.Number.Decimal
import TableGateway.Number.Stored

/-!
# The text of a decimal

The text of a finite decimal reads back as the decimal itself, coefficient and exponent included.
Its parts are a sign, digits with at most one point in them, and a power; each form of the text is
one choice of these parts.
-/
namespace TableGateway

theorem Text.digitValue?_of_isDigit {c : Char} (h : c.isDigit) :
    digitValue? c = some (c.toNat - 48) := by
  have hlow : 48 ≤ c.toNat ∧ c.toNat ≤ 57 := by
    simp only [Char.isDigit, Bool.and_eq_true, decide_eq_true_eq, ge_iff_le,
      UInt32.le_iff_toNat_le] at h
    exact h
  have hfirst : zeroDigits.find? (fun z => z ≤ c.toNat ∧ c.toNat < z + 10) = some 48 := by
    rw [zeroDigits, List.find?_cons_of_pos]
    simp only [decide_eq_true_eq]
    omega
  rw [digitValue?, hfirst]
  rfl

namespace Decimal

theorem digitsOf_ne_nil (n : Nat) : digitsOf n ≠ [] := by
  rw [ne_eq, ← List.length_eq_zero_iff, digitsOf]
  have h : 0 < (Nat.toDigits 10 n).length := Nat.length_toDigits_pos
  omega

theorem isDigit_of_mem_digitsOf {n : Nat} : ∀ c ∈ digitsOf n, c.isDigit :=
  fun _ hc => Nat.isDigit_of_mem_toDigits (by decide) (by decide) hc

/-- The values of digits. -/
def digitValues (cs : List Char) : List Nat := cs.map fun c => c.toNat - 48

theorem ofDigits_values (cs : List Char) :
    ofDigits (digitValues cs) = Nat.ofDigitChars 10 cs 0 := by
  rw [ofDigits, digitValues, List.foldl_map, Nat.ofDigitChars_eq_foldl]
  rfl

theorem ofDigits_digitsOf (n : Nat) : ofDigits (digitValues (digitsOf n)) = n := by
  rw [ofDigits_values, digitsOf, Nat.ofDigitChars_ten_toDigits]

/-- Zeros before the digits of a number do not change it. -/
theorem ofDigits_zeros (k n : Nat) :
    ofDigits (digitValues (List.replicate k '0' ++ digitsOf n)) = n := by
  rw [ofDigits_values, Nat.ofDigitChars_append, Nat.ofDigitChars_replicate_zero, Nat.mul_zero,
    digitsOf, Nat.ofDigitChars_ten_toDigits]

theorem takeDigits_append {cs : List Char} (hcs : ∀ c ∈ cs, c.isDigit) {rest : List Char}
    (hrest : takeDigits rest = ([], rest)) :
    takeDigits (cs ++ rest) = (digitValues cs, rest) := by
  induction cs with
  | nil => simpa [digitValues] using hrest
  | cons c cs ih =>
    simp [takeDigits, Text.digitValue?_of_isDigit (hcs c (by simp)),
      ih fun d hd => hcs d (by simp [hd]), digitValues]

/-- The part of a text with the digits after the point. -/
def pointText (fraction : List Char) : List Char := if fraction = [] then [] else '.' :: fraction

def powerText (power : Int) : List Char :=
  if power = 0 then [] else 'E' :: (if power < 0 then '-' else '+') :: digitsOf power.natAbs

theorem takeDigits_powerText (power : Int) :
    takeDigits (powerText power) = ([], powerText power) := by
  have hletter : Text.digitValue? 'E' = none := by decide
  by_cases h : power = 0 <;> simp [powerText, h, takeDigits, hletter]

theorem takeDigits_pointText (fraction : List Char) (power : Int) :
    takeDigits (pointText fraction ++ powerText power) =
      ([], pointText fraction ++ powerText power) := by
  have hpoint : Text.digitValue? '.' = none := by decide
  by_cases h : fraction = []
  · simpa [pointText, h] using takeDigits_powerText power
  · simp [pointText, h, takeDigits, hpoint]

theorem exponent?_powerText (power : Int) : exponent? (powerText power) = some power := by
  by_cases h : power = 0
  · simp [powerText, h, exponent?]
  · have hdigits : takeDigits (digitsOf power.natAbs) =
        (digitValues (digitsOf power.natAbs), []) := by
      have happend := takeDigits_append (@isDigit_of_mem_digitsOf power.natAbs)
        (show takeDigits [] = ([], []) from rfl)
      rwa [List.append_nil] at happend
    obtain ⟨d, ds, hds⟩ : ∃ d ds, digitValues (digitsOf power.natAbs) = d :: ds := by
      apply List.exists_cons_of_ne_nil
      simpa [digitValues] using digitsOf_ne_nil power.natAbs
    have hvalue : ofDigits (d :: ds) = power.natAbs := by rw [← hds, ofDigits_digitsOf]
    have hletter : 'E'.toLower = 'e' := by decide
    by_cases hneg : power < 0
    · simp only [powerText, h, hneg, if_false, if_true, exponent?, hletter, takeSign, hdigits, hds,
        hvalue]
      rw [Option.some_inj]
      omega
    · simp only [powerText, h, hneg, if_false, if_true, exponent?, hletter, takeSign, hdigits, hds,
        hvalue]
      rw [Option.some_inj, if_neg (by decide)]
      omega

theorem takeSign_text (s : Bool) {cs : List Char} (hne : cs ≠ []) (hcs : ∀ c ∈ cs, c.isDigit)
    (rest : List Char) : takeSign ((signText s).toList ++ (cs ++ rest)) = (s, cs ++ rest) := by
  cases s with
  | true => rfl
  | false =>
    obtain ⟨c, cs, rfl⟩ := List.exists_cons_of_ne_nil hne
    have hc := hcs c (by simp)
    have hminus : c ≠ '-' := by rintro rfl; revert hc; decide
    have hplus : c ≠ '+' := by rintro rfl; revert hc; decide
    simp only [signText, Bool.false_eq_true, if_false, String.toList_empty, List.nil_append,
      List.cons_append]
    rw [takeSign] <;> simp [hminus, hplus]

/-- A text of a sign, digits before and after a point, and a power. -/
theorem read?_parts (s : Bool) {whole fraction : List Char} (hne : whole ≠ [])
    (hw : ∀ c ∈ whole, c.isDigit) (hf : ∀ c ∈ fraction, c.isDigit) (power : Int) :
    read? ((signText s).toList ++ (whole ++ (pointText fraction ++ powerText power))) =
      some (.finite s (ofDigits (digitValues (whole ++ fraction))) (power - fraction.length)) := by
  have hwhole : (digitValues whole).isEmpty = false := by simpa [digitValues] using hne
  rw [read?, takeSign_text s hne hw]
  simp only [takeDigits_append hw (takeDigits_pointText fraction power)]
  by_cases h : fraction = []
  · subst h
    obtain hnone | ⟨cs, hcs⟩ : powerText power = [] ∨ ∃ cs, powerText power = 'E' :: cs := by
      by_cases hp : power = 0 <;> simp [powerText, hp]
    · have hpower := exponent?_powerText power
      rw [hnone] at hpower
      simp [pointText, hnone, hwhole, hpower]
    · have hpower := exponent?_powerText power
      rw [hcs] at hpower
      simp [pointText, hcs, hwhole, hpower]
  · simp [pointText, h, takeDigits_append hf (takeDigits_powerText power), exponent?_powerText,
      digitValues]

/-- Digits with a point after some of them, all of them included. -/
theorem digits_at_point {digits : List Char} {point : Nat} (h : point ≤ digits.length) :
    (if digits.length ≤ point then digits ++ List.replicate (point - digits.length) '0'
      else digits.take point ++ '.' :: digits.drop point) =
      digits.take point ++ pointText (digits.drop point) := by
  by_cases hall : digits.length ≤ point
  · have hpoint : point = digits.length := by omega
    subst hpoint
    simp [pointText]
  · simp [pointText, hall]

/-- The text of a number by the place of its point. -/
theorem text_toList (s : Bool) (c : Nat) (e : Int) :
    ∃ point : Int, (point = e + (digitsOf c).length ∨ 0 < point) ∧ point ≤ (digitsOf c).length ∧
      (text (.finite s c e)).toList = (signText s).toList ++
        ((if point ≤ 0 then '0' :: '.' :: List.replicate (-point).toNat '0' ++ digitsOf c
          else (digitsOf c).take point.toNat ++ pointText ((digitsOf c).drop point.toNat)) ++
        powerText (e + (digitsOf c).length - point)) := by
  have hlength : 0 < (digitsOf c).length := List.length_pos_iff.mpr (digitsOf_ne_nil c)
  let point : Int :=
    if e ≤ 0 ∧ -6 < e + (digitsOf c).length then e + (digitsOf c).length else 1
  have hpoint : (point = e + (digitsOf c).length ∧ e ≤ 0) ∨ point = 1 := by
    by_cases h : e ≤ 0 ∧ -6 < e + (digitsOf c).length
    · exact .inl ⟨if_pos h, h.1⟩
    · exact .inr (if_neg h)
  refine ⟨point, by omega, by omega, ?_⟩
  rw [← digits_at_point (by omega)]
  simp only [text, String.toList_append, String.toList_ofList]
  rfl

theorem read?_text (s : Bool) (c : Nat) (e : Int) :
    read? (text (.finite s c e)).toList = some (.finite s c e) := by
  obtain ⟨point, hplace, hmost, htext⟩ := text_toList s c e
  have hdigits := @isDigit_of_mem_digitsOf c
  rw [htext]
  by_cases h : point ≤ 0
  · have hbody : '0' :: '.' :: List.replicate (-point).toNat '0' ++ digitsOf c =
        ['0'] ++ pointText (List.replicate (-point).toNat '0' ++ digitsOf c) := by
      simp [pointText, digitsOf_ne_nil]
    have hfraction : ∀ d ∈ List.replicate (-point).toNat '0' ++ digitsOf c, d.isDigit := by
      intro d hd
      rcases List.mem_append.mp hd with hd | hd
      · rw [List.eq_of_mem_replicate hd]
        rfl
      · exact hdigits d hd
    rw [if_pos h, hbody, List.append_assoc, read?_parts s (by simp) (by simp) hfraction]
    rw [← List.append_assoc]
    have hvalue :
        ofDigits (digitValues (['0'] ++ List.replicate (-point).toNat '0' ++ digitsOf c)) = c :=
      ofDigits_zeros ((-point).toNat + 1) c
    have hpower : e + (digitsOf c).length - point -
        (List.replicate (-point).toNat '0' ++ digitsOf c).length = e := by
      simp only [List.length_append, List.length_replicate]
      omega
    rw [hvalue, hpower]
  · have hwhole : (digitsOf c).take point.toNat ≠ [] := by
      simp only [ne_eq, List.take_eq_nil_iff, digitsOf_ne_nil, or_false]
      omega
    have hpower : e + (digitsOf c).length - point - ((digitsOf c).drop point.toNat).length = e := by
      rw [List.length_drop]
      omega
    rw [if_neg h, List.append_assoc,
      read?_parts s hwhole (fun d hd => hdigits d (List.mem_of_mem_take hd))
        (fun d hd => hdigits d (List.mem_of_mem_drop hd)),
      List.take_append_drop, ofDigits_digitsOf, hpower]

/-- A number is never rounded on its way into the store. -/
theorem eq_of_storedFinite {s : Bool} {c : Nat} {e : Int} {d : Decimal}
    (h : storedFinite s c e = .ok d) : d = .finite s c e := by
  unfold storedFinite at h
  grind

end Decimal

end TableGateway
