import TableGateway.Text.Base64

/-!
# Base64 read back

Bytes written in either alphabet are read back, and so is the text without the padding at its end
once it is padded again.
-/
namespace TableGateway.Base64

theorem value?_digit {n : Nat} (h : n < 64) : value? (digit standard n) = some n := by
  have hall : ∀ n ∈ List.range 64, value? (digit standard n) = some n := by decide
  exact hall n (List.mem_range.mpr h)

theorem digit_ne_pad {n : Nat} (h : n < 64) : digit standard n ≠ '=' := by
  have hall : ∀ n ∈ List.range 64, digit standard n ≠ '=' := by decide
  exact hall n (List.mem_range.mpr h)

theorem digit_ascii {n : Nat} (h : n < 64) : (digit standard n).toNat < 128 := by
  have hall : ∀ n ∈ List.range 64, (digit standard n).toNat < 128 := by decide
  exact hall n (List.mem_range.mpr h)

theorem readFrom_digit (g : Group) (pads : Nat) {n : Nat} (h : n < 64) (cs : List Char) :
    readFrom g pads (digit standard n :: cs) =
      (readFrom (g.push n).1 0 cs).map ((g.push n).2.toList ++ ·) := by
  rw [readFrom, if_neg (digit_ne_pad h), value?_digit h]

theorem ofNat_eq {b : UInt8} {n : Nat} (h : n = b.toNat) : UInt8.ofNat n = b := by
  rw [h, UInt8.ofNat_toNat]

/-- The induction is on the groups of three bytes; in a group the carried bits and the next value
together are the next byte. -/
theorem readFrom_encode (bs : List UInt8) : readFrom .none 0 (encode standard bs) = some bs := by
  induction bs using encode.induct with
  | case1 => rfl
  | case2 x =>
    have hx := x.toNat_lt
    have hbyte : UInt8.ofNat (x.toNat / 4 * 4 + x.toNat % 4 * 16 / 16) = x := ofNat_eq (by omega)
    simp only [encode]
    rw [readFrom_digit _ _ (by omega), readFrom_digit _ _ (by omega)]
    simp only [Group.push, hbyte]
    rfl
  | case3 x y =>
    have hx := x.toNat_lt
    have hy := y.toNat_lt
    have hfirst : UInt8.ofNat (x.toNat / 4 * 4 + (x.toNat % 4 * 16 + y.toNat / 16) / 16) = x :=
      ofNat_eq (by omega)
    have hsecond : UInt8.ofNat
        ((x.toNat % 4 * 16 + y.toNat / 16) % 16 * 16 + y.toNat % 16 * 4 / 4) = y := ofNat_eq (by omega)
    simp only [encode]
    rw [readFrom_digit _ _ (by omega), readFrom_digit _ _ (by omega), readFrom_digit _ _ (by omega)]
    simp only [Group.push, hfirst, hsecond]
    rfl
  | case4 x y z rest ih =>
    have hx := x.toNat_lt
    have hy := y.toNat_lt
    have hz := z.toNat_lt
    have hfirst : UInt8.ofNat (x.toNat / 4 * 4 + (x.toNat % 4 * 16 + y.toNat / 16) / 16) = x :=
      ofNat_eq (by omega)
    have hsecond : UInt8.ofNat
        ((x.toNat % 4 * 16 + y.toNat / 16) % 16 * 16 + (y.toNat % 16 * 4 + z.toNat / 64) / 4) = y :=
      ofNat_eq (by omega)
    have hthird : UInt8.ofNat ((y.toNat % 16 * 4 + z.toNat / 64) % 4 * 64 + z.toNat % 64) = z :=
      ofNat_eq (by omega)
    simp only [encode]
    rw [readFrom_digit _ _ (by omega), readFrom_digit _ _ (by omega), readFrom_digit _ _ (by omega),
      readFrom_digit _ _ (by omega)]
    simp only [Group.push, hfirst, hsecond, hthird, ih]
    rfl

/-- A text as a body of alphabet characters and so many pads. -/
structure Padded (a : Alphabet) (cs : List Char) (core : List Char) (pads : Nat) : Prop where
  eq : cs = core ++ List.replicate pads '='
  digits : ∀ c ∈ core, ∃ n < 64, c = digit a n
  few : pads ≤ 2
  length : (core.length + pads) % 4 = 0

/-- What is written is a row of digits with at most two pads behind it. -/
theorem encode_padded (a : Alphabet) (bs : List UInt8) :
    ∃ core pads, Padded a (encode a bs) core pads ∧ (bs ≠ [] → core ≠ []) := by
  induction bs using encode.induct with
  | case1 => exact ⟨[], 0, ⟨rfl, by simp, by simp, rfl⟩, by simp⟩
  | case2 x =>
    have hx := x.toNat_lt
    refine ⟨[digit a (x.toNat / 4), digit a (x.toNat % 4 * 16)], 2, ⟨rfl, ?_, by simp, by simp⟩,
      by simp⟩
    simp only [List.mem_cons, List.not_mem_nil, or_false]
    rintro c (rfl | rfl)
    · exact ⟨_, by omega, rfl⟩
    · exact ⟨_, by omega, rfl⟩
  | case3 x y =>
    have hx := x.toNat_lt
    have hy := y.toNat_lt
    refine ⟨[digit a (x.toNat / 4), digit a (x.toNat % 4 * 16 + y.toNat / 16),
      digit a (y.toNat % 16 * 4)], 1, ⟨rfl, ?_, by simp, by simp⟩, by simp⟩
    simp only [List.mem_cons, List.not_mem_nil, or_false]
    rintro c (rfl | rfl | rfl)
    · exact ⟨_, by omega, rfl⟩
    · exact ⟨_, by omega, rfl⟩
    · exact ⟨_, by omega, rfl⟩
  | case4 x y z rest ih =>
    obtain ⟨core, pads, h, -⟩ := ih
    have hx := x.toNat_lt
    have hy := y.toNat_lt
    refine ⟨digit a (x.toNat / 4) :: digit a (x.toNat % 4 * 16 + y.toNat / 16) ::
      digit a (y.toNat % 16 * 4 + z.toNat / 64) :: digit a (z.toNat % 64) :: core, pads,
      ⟨?_, ?_, h.few, ?_⟩, by simp⟩
    · simp only [encode, h.eq, List.cons_append]
    · simp only [List.mem_cons]
      rintro c (rfl | rfl | rfl | rfl | hc)
      · exact ⟨_, by omega, rfl⟩
      · exact ⟨_, by have := z.toNat_lt; omega, rfl⟩
      · exact ⟨_, by have := z.toNat_lt; omega, rfl⟩
      · exact ⟨_, by omega, rfl⟩
      · exact h.digits c hc
    · have hlength := h.length
      simp only [List.length_cons]
      omega

/-- Bytes come back from what is written of them. -/
theorem decode_encode (bs : List UInt8) : decode (encode standard bs) = some bs := by
  obtain ⟨core, pads, h, -⟩ := encode_padded standard bs
  have hascii : (encode standard bs).all (·.toNat < 128) = true := by
    rw [h.eq, List.all_eq_true]
    intro c hc
    rcases List.mem_append.mp hc with hc | hc
    · obtain ⟨n, hn, rfl⟩ := h.digits c hc
      simpa using digit_ascii hn
    · rw [List.eq_of_mem_replicate hc]
      rfl
  rw [decode, if_pos hascii, readFrom_encode]

/-- The URL-safe alphabet in the place of the standard one. -/
def restored (c : Char) : Char := if c = '-' then '+' else if c = '_' then '/' else c

theorem restored_digit {n : Nat} (h : n < 64) : restored (digit urlSafe n) = digit standard n := by
  have hall : ∀ n ∈ List.range 64, restored (digit urlSafe n) = digit standard n := by decide
  exact hall n (List.mem_range.mpr h)

theorem map_restored_encode (bs : List UInt8) :
    (encode urlSafe bs).map restored = encode standard bs := by
  have hpad : restored '=' = '=' := by decide
  induction bs using encode.induct with
  | case1 => rfl
  | case2 x =>
    have hx := x.toNat_lt
    simp only [encode, List.map_cons, List.map_nil, hpad]
    rw [restored_digit (by omega), restored_digit (by omega)]
  | case3 x y =>
    have hx := x.toNat_lt
    have hy := y.toNat_lt
    simp only [encode, List.map_cons, List.map_nil, hpad]
    rw [restored_digit (by omega), restored_digit (by omega), restored_digit (by omega)]
  | case4 x y z rest ih =>
    have hx := x.toNat_lt
    have hy := y.toNat_lt
    have hz := z.toNat_lt
    simp only [encode, List.map_cons, ih]
    rw [restored_digit (by omega), restored_digit (by omega), restored_digit (by omega),
      restored_digit (by omega)]

/-- They do so in the URL-safe alphabet too. -/
theorem decodeUrlSafe_encode (bs : List UInt8) : decodeUrlSafe (encode urlSafe bs) = some bs := by
  have hmap : (encode urlSafe bs).map (fun c => if c = '-' then '+' else if c = '_' then '/' else c) =
      encode standard bs := map_restored_encode bs
  rw [decodeUrlSafe, hmap, decode_encode]

/-- With some of its pads or none a text is padded to what it was. -/
theorem Padded.pad {a : Alphabet} {cs core : List Char} {pads : Nat} (h : Padded a cs core pads)
    {kept : Nat} (hk : kept ≤ pads) :
    let part := core ++ List.replicate kept '='
    part ++ List.replicate ((4 - part.length % 4) % 4) '=' = cs := by
  intro part
  have hlength := h.length
  have hfew := h.few
  have hmissing : (4 - part.length % 4) % 4 = pads - kept := by
    simp only [part, List.length_append, List.length_replicate]
    omega
  rw [hmissing, h.eq]
  simp only [part, List.append_assoc, List.replicate_append_replicate]
  rw [Nat.add_sub_cancel' hk]

end TableGateway.Base64
