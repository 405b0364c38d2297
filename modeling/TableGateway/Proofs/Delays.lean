import TableGateway.Proofs.Pages

/-!
# Waits grow up to a second

A double with a full mantissa times a power of two is a double again, so nothing is rounded when a
wait is doubled. From the seventh wait on the doubled hundredth is more than a second.
-/
namespace TableGateway

theorem twoTo_pos (n : Nat) : 0 < twoTo n := Nat.two_pow_pos n

theorem twoTo_add (m n : Nat) : twoTo (m + n) = twoTo m * twoTo n := Nat.pow_add 2 m n

theorem roundHalfEven_mul (m : Nat) {d : Nat} (hd : 0 < d) : roundHalfEven (m * d) d = m := by
  have hwhole : m * d / d = m := Nat.mul_div_cancel m hd
  have hrest : m * d % d = 0 := Nat.mul_mod_left m d
  simp only [roundHalfEven, hwhole, hrest]
  rw [if_neg]
  omega

/-- Scaled by two powers of two, of which the second makes up for the first. -/
theorem scaleTwo_scaleTwo (m : Nat) {e k : Int} (h : 0 ≤ e + k) :
    0 < (scaleTwo (scaleTwo m e).1 k).2 * (scaleTwo m e).2 ∧
      (scaleTwo (scaleTwo m e).1 k).1 =
        m * twoTo (e + k).toNat * ((scaleTwo (scaleTwo m e).1 k).2 * (scaleTwo m e).2) := by
  by_cases he : 0 ≤ e <;> by_cases hk : 0 ≤ k
  · have hsum : (e + k).toNat = e.toNat + k.toNat := by omega
    simp [scaleTwo, he, hk, hsum, twoTo_add, Nat.mul_assoc]
  · have hsum : e.toNat = (e + k).toNat + (-k).toNat := by omega
    simp [scaleTwo, he, hk, hsum, twoTo_add, Nat.mul_assoc, twoTo_pos]
  · have hsum : k.toNat = (e + k).toNat + (-e).toNat := by omega
    simp [scaleTwo, he, hk, hsum, twoTo_add, Nat.mul_assoc, twoTo_pos]
  · omega

namespace Binary64

/-- Has a mantissa all the digits that it can have? -/
def IsFull (m : Nat) : Prop := twoTo 52 ≤ m ∧ m < twoTo 53

theorem IsFull.log2_scaled {m : Nat} (h : IsFull m) (k : Nat) : (m * twoTo k).log2 = 52 + k := by
  have hm : 0 < m := Nat.lt_of_lt_of_le (twoTo_pos 52) h.1
  have hne : m * twoTo k ≠ 0 := Nat.ne_of_gt (Nat.mul_pos hm (twoTo_pos k))
  rw [Nat.log2_eq_iff hne]
  constructor
  · rw [Nat.pow_add]
    exact Nat.mul_le_mul_right _ h.1
  · rw [show 52 + k + 1 = 53 + k by omega, Nat.pow_add]
    exact Nat.mul_lt_mul_of_pos_right h.2 (twoTo_pos k)

/-- A number with a full mantissa, within the range of doubles, is the double nearest to it. -/
theorem ofRatio_scaleTwo (s : Bool) {m : Nat} {e : Int} (hm : IsFull m) (hlow : -1074 ≤ e)
    (hhigh : e ≤ 971) : ofRatio s (scaleTwo m e).1 (scaleTwo m e).2 = .finite s m e := by
  have hpos : 0 < m := Nat.lt_of_lt_of_le (twoTo_pos 52) hm.1
  have hnum : (scaleTwo m e).1 ≠ 0 := by
    by_cases he : 0 ≤ e
    · simpa [scaleTwo, he] using Nat.ne_of_gt (Nat.mul_pos hpos (twoTo_pos e.toNat))
    · simpa [scaleTwo, he] using Nat.ne_of_gt hpos
  have hlog : ((scaleTwo m e).1.log2 : Int) - (scaleTwo m e).2.log2 - 53 = e - 1 := by
    by_cases he : 0 ≤ e
    · have hone : Nat.log2 1 = 0 := by decide
      simp only [scaleTwo, he, if_true, hm.log2_scaled, hone]
      omega
    · have htwos : (twoTo (-e).toNat).log2 = (-e).toNat := Nat.log2_two_pow
      have hone : m.log2 = 52 := by simpa using hm.log2_scaled 0
      simp only [scaleTwo, he, if_false, htwos, hone]
      omega
  -- one place below its exponent the mantissa would have a digit too many
  obtain ⟨hden, hbelow⟩ := scaleTwo_scaleTwo m (e := e) (k := -(e - 1)) (by omega)
  have htwice : (e + -(e - 1)).toNat = 1 := by omega
  have hunfit : ¬ (scaleTwo (scaleTwo m e).1 (-(e - 1))).1 /
      ((scaleTwo (scaleTwo m e).1 (-(e - 1))).2 * (scaleTwo m e).2) < twoTo 53 := by
    rw [hbelow, htwice, Nat.mul_div_cancel _ hden]
    have hsplit : twoTo 53 = twoTo 52 * twoTo 1 := twoTo_add 52 1
    exact Nat.not_lt.mpr (hsplit ▸ Nat.mul_le_mul_right _ hm.1)
  obtain ⟨hden', hexact⟩ := scaleTwo_scaleTwo m (e := e) (k := -e) (by omega)
  have hzero : (e + -e).toNat = 0 := by omega
  have hround : roundHalfEven (scaleTwo (scaleTwo m e).1 (-e)).1
      ((scaleTwo (scaleTwo m e).1 (-e)).2 * (scaleTwo m e).2) = m := by
    rw [hexact, hzero, twoTo_zero, Nat.mul_one, roundHalfEven_mul m hden']
  have hq : max (-1074) (e - 1 + 1) = e := by omega
  simp only [ofRatio, hnum, hlog, hunfit, if_false, decide_false, hq, hround, Bool.false_eq_true,
    if_neg (Nat.ne_of_lt hm.2), if_neg (Int.not_lt.mpr hhigh)]

/-- Times a power of two, a double with a full mantissa changes its exponent only. -/
theorem timesTwoPow_full (s : Bool) {m : Nat} {e k : Int} (hm : IsFull m) (hlow : -1074 ≤ e + k)
    (hhigh : e + k ≤ 971) : (Binary64.finite s m e).timesTwoPow k = .finite s m (e + k) :=
  ofRatio_scaleTwo s hm hlow hhigh

end Binary64

theorem Decimal.orderFinite_of_pos {c d : Nat} (hc : 0 < c) (hd : 0 < d) (e f : Int) :
    orderFinite false c e false d f = orderScaled c e d f := by
  cases c with
  | zero => omega
  | succ c =>
    cases d with
    | zero => omega
    | succ d => rfl

/-- Is the first number at most the second? -/
def Number.atMost (x y : Number) : Bool := (x.order? y).any (· ≠ .gt)

namespace Backoff

theorem seconds_eq_scaled {n : Nat} (h : n < 1024) :
    seconds n = .ok (if (Number.int 1).lessThan (.float (scaled n)) then longest else scaled n) := by
  have hwhole : 0 < wholeLimit := by decide +kernel
  have hn : ¬(powerLimit ≤ (n : Int) ∨ (n : Int) ≤ -wholeLimit) := by
    simp only [powerLimit]
    omega
  rw [seconds, if_neg hn]

theorem base_eq : base = .finite false 5764607523034235 (-59) := by decide +kernel

/-- A hundredth of a second, doubled so often. -/
def hundredth (n : Nat) : Binary64 := .finite false 5764607523034235 (n - 59)

theorem scaled_eq {n : Nat} (h : n < 1024) : scaled n = hundredth n := by
  have hfull : Binary64.IsFull 5764607523034235 := by
    constructor <;> decide
  have hleast : ¬ (n : Int) < leastPower := by
    simp only [leastPower]
    omega
  rw [scaled, if_neg hleast, base_eq, Binary64.timesTwoPow_full false hfull (by omega) (by omega),
    hundredth, Int.add_comm, Int.sub_eq_add_neg]

/-- From the seventh time on a hundredth of a second doubled is more than one: there is a digit before
the last one in front of the point. -/
theorem one_lessThan_hundredth {n : Nat} (h : 7 ≤ n) :
    (Number.int 1).lessThan (.float (hundredth n)) := by
  by_cases hn : n < 59
  · have hsmall : ∀ k < 59, 7 ≤ k → (Number.int 1).lessThan (.float (hundredth k)) := by
      decide +kernel
    exact hsmall n hn h
  · have he : 0 ≤ (n : Int) - 59 := by omega
    let c := 5764607523034235 * twoTo ((n : Int) - 59).toNat
    have hc : 10 ≤ c := by
      have := twoTo_pos ((n : Int) - 59).toNat
      simp only [c]
      omega
    have hlength : 1 < (digitsOf c).length := by
      have hfront : 0 < (Nat.toDigits 10 (c / 10)).length := Nat.length_toDigits_pos
      rw [digitsOf, Nat.toDigits_of_base_le (by decide) hc, List.length_append]
      simp only [List.length_singleton]
      omega
    have hcompare : compare ((digitsOf 1).length : Int) (digitsOf c).length = .lt := by
      have hone : (digitsOf 1).length = 1 := by decide
      rw [hone, Int.compare_eq_lt]
      omega
    have hdecimal : Decimal.ofBinary64 (hundredth n) = .finite false c 0 := by
      simp only [hundredth, Decimal.ofBinary64, if_pos he, c]
    simp [Number.lessThan, Number.order?, Number.toDecimal, hdecimal, Decimal.ofInt, Decimal.order?,
      Decimal.orderFinite_of_pos Nat.one_pos (Nat.lt_of_lt_of_le (by decide) hc),
      Decimal.orderScaled, hcompare]

theorem delay_of_le {n : Nat} (h : 7 ≤ n) : delay n = longest := by
  by_cases hn : n < 1024
  · have hseconds : seconds n = .ok longest := by
      rw [seconds_eq_scaled hn, scaled_eq hn, if_pos (one_lessThan_hundredth h)]
    rw [delay, hseconds]
    rfl
  · have hlimit : powerLimit ≤ (n : Int) := by
      simp only [powerLimit]
      omega
    rw [delay, seconds, if_pos (.inl hlimit)]
    rfl

/-- The waits do not get shorter. -/
theorem delay_atMost_delay {a b : Nat} (h : a ≤ b) :
    (Number.float (delay a)).atMost (.float (delay b)) := by
  have hcut : ∀ n, delay n = delay (min n 7) := by
    intro n
    by_cases hn : 7 ≤ n
    · rw [Nat.min_eq_right hn, delay_of_le hn, delay_of_le (Nat.le_refl 7)]
    · rw [Nat.min_eq_left (by omega)]
  have hsmall : ∀ b < 8, ∀ a ≤ b, (Number.float (delay a)).atMost (.float (delay b)) := by
    decide +kernel
  rw [hcut a, hcut b]
  exact hsmall (min b 7) (by omega) (min a 7) (by omega)

theorem delay_atMost_one (n : Nat) : (Number.float (delay n)).atMost (.int 1) := by
  by_cases hn : 7 ≤ n
  · rw [delay_of_le hn]
    decide +kernel
  · have hsmall : ∀ k < 7, (Number.float (delay k)).atMost (.int 1) := by decide +kernel
    exact hsmall n (by omega)

end Backoff
end TableGateway
