import TableGateway.Proofs.AttributeForm

/-!
# What the store takes

The attribute value that a well made value goes over to can be read back: its numbers are texts of
numbers that the store can hold, and the members of its sets can be members again.
-/
namespace TableGateway.Attribute

open TableGateway.Entries

/-- A finite number as a decimal. -/
def decimalOf : Number → Decimal
  | .int n => .ofInt n
  | .float _ => .finite false 0 0
  | .decimal d => d

theorem storedFinite_of_storedDecimal {s : Bool} {c : Nat} {e : Int} {d : Decimal}
    (h : storedDecimal (.finite s c e) = .ok d) :
    d = .finite s c e ∧ Decimal.storedFinite s c e = .ok (.finite s c e) := by
  have hstored : Decimal.storedFinite s c e = .ok d := by
    rw [storedDecimal, Decimal.stored] at h
    cases hs : Decimal.storedFinite s c e with
    | ok d => simpa [hs] using h
    | error signal => simp [hs] at h
  obtain rfl := Decimal.eq_of_storedFinite hstored
  exact ⟨rfl, hstored⟩

/-- The digits of a finite number are the text of its decimal, which the store can hold. -/
theorem digitsOfNumber_eq {n : Number} (hn : n.IsFinite) {d : Text}
    (h : digitsOfNumber n = .ok d) :
    ∃ s c e, decimalOf n = .finite s c e ∧ d = (Decimal.finite s c e).text ∧
      Decimal.storedFinite s c e = .ok (.finite s c e) := by
  cases n with
  | int n =>
    rw [digitsOfNumber] at h
    obtain ⟨d', hs, rfl⟩ := Result.map_eq_ok.mp h
    obtain ⟨rfl, hstored⟩ := storedFinite_of_storedDecimal hs
    exact ⟨_, _, _, rfl, rfl, hstored⟩
  | float x => simp [digitsOfNumber] at h
  | decimal d' =>
    cases d' with
    | finite s c e =>
      rw [digitsOfNumber] at h
      obtain ⟨d', hs, htext⟩ := Result.bind_eq_ok.mp h
      obtain ⟨rfl, hstored⟩ := storedFinite_of_storedDecimal hs
      by_cases hspecial : (Decimal.finite s c e).text = "Infinity" ∨
          (Decimal.finite s c e).text = "NaN"
      · simp [hspecial] at htext
      · obtain rfl : (Decimal.finite s c e).text = d := by simpa [hspecial] using htext
        exact ⟨s, c, e, rfl, rfl, hstored⟩
    | infinite s => exact absurd hn (by simp [Number.IsFinite])
    | nan s signaling payload => exact absurd hn (by simp [Number.IsFinite])

/-- The digits of a finite number are those of a decimal that the store holds. -/
theorem storable_digitsOfNumber {n : Number} (hn : n.IsFinite) {d : Text}
    (h : digitsOfNumber n = .ok d) : Storable d := by
  obtain ⟨s, c, e, -, rfl, hstored⟩ := digitsOfNumber_eq hn h
  exact ⟨.finite s c e, Decimal.read?_text s c e, hstored, trivial⟩

/-- The digits of a finite number are read as its decimal. -/
theorem decimalValue_digits {n : Number} (hn : n.IsFinite) {d : Text}
    (h : digitsOfNumber n = .ok d) : decimalValue d = .number (.decimal (decimalOf n)) := by
  obtain ⟨s, c, e, hdecimal, rfl, -⟩ := digitsOfNumber_eq hn h
  rw [decimalValue, decimalOfText, Text.chars?_whole, Option.bind_some, Decimal.read?_text, hdecimal,
    Option.getD_some]

theorem readInfinity : Decimal.read? "Infinity".toList = some (.infinite false) := by
  decide +kernel

theorem readNaN : Decimal.read? "NaN".toList = some (.nan false false 0) := by
  decide +kernel

/-- A decimal that is taken is read back from its text. -/
theorem read?_taken {d : Decimal} (h : d.Taken) : Decimal.read? d.text.toList = some d := by
  cases d with
  | finite s c e => exact Decimal.read?_text s c e
  | infinite s =>
    obtain rfl : s = true := h
    decide +kernel
  | nan => exact h.elim

/-- Decimals that are taken go over to their text. -/
theorem digitsOfNumber_taken {d : Decimal} (hstored : d.stored = .ok d) (htaken : d.Taken) :
    digitsOfNumber (.decimal d) = .ok d.text := by
  have hread := read?_taken htaken
  have hordinary : ¬(d.text = "Infinity" ∨ d.text = "NaN") := by
    rintro (htext | htext) <;> rw [htext] at hread
    · obtain rfl := Option.some.inj (hread.symm.trans readInfinity)
      exact absurd htaken (by simp [Decimal.Taken])
    · obtain rfl := Option.some.inj (hread.symm.trans readNaN)
      exact htaken
  simp [digitsOfNumber, storedDecimal, hstored, hordinary]

theorem mem_of_mapM_some {α β : Type} {f : α → Option β} {xs : List α} {ys : List β}
    (h : xs.mapM f = some ys) : ∀ y ∈ ys, ∃ x ∈ xs, f x = some y := by
  induction xs generalizing ys with
  | nil =>
    obtain rfl : [] = ys := by simpa using h
    simp
  | cons x xs ih =>
    rw [List.mapM_cons] at h
    obtain ⟨y, hx, zs, hxs, rfl⟩ :
        ∃ y, f x = some y ∧ ∃ zs, xs.mapM f = some zs ∧ y :: zs = ys := by
      simpa [Option.bind_eq_some_iff] using h
    intro z hz
    rcases List.mem_cons.mp hz with rfl | hz
    · exact ⟨x, by simp, hx⟩
    · obtain ⟨w, hw, hf⟩ := ih hxs z hz
      exact ⟨w, by simp [hw], hf⟩

theorem isFinite_of_number? {v : Value} (h : v.Regular) {n : Number} (hn : v.number? = some n) :
    n.IsFinite := by
  cases v with
  | bool b =>
    obtain rfl : .int (if b then 1 else 0) = n := by simpa [Value.number?] using hn
    trivial
  | number m =>
    obtain rfl : m = n := by simpa [Value.number?] using hn
    exact h
  | _ => simp [Value.number?] at hn

theorem sound_ofSet {vs : List Value} (hhash : Value.allHashable vs) (hr : Value.RegularAll vs)
    {a : Attribute} (h : ofSet vs = .ok a) : Sound a := by
  rw [ofSet] at h
  rw [Value.allHashable_iff] at hhash
  rw [Value.regularAll_iff] at hr
  split at h
  · obtain ⟨ds, hds, rfl⟩ := Result.map_eq_ok.mp h
    intro d hd
    obtain ⟨v, hv, hdigits⟩ := Result.exists_source_of_mapM hds d hd
    cases hn : v.number? with
    | none => simp [digits, hn] at hdigits
    | some n =>
      rw [digits, hn] at hdigits
      exact storable_digitsOfNumber (isFinite_of_number? (hr v hv) hn) hdigits
  · split at h
    · obtain rfl := Except.ok.inj h
      trivial
    · next rows _ hrows =>
      obtain rfl := Except.ok.inj h
      intro r hr'
      obtain ⟨v, hv, hbytes⟩ := mem_of_mapM_some hrows r hr'
      cases v with
      | blob b =>
        obtain rfl : (b.mutable, b.bytes) = r := by simpa [bytesOf?] using hbytes
        simpa [Value.hashable] using hhash _ hv
      | _ => simp [bytesOf?] at hbytes
    · simp at h

mutual

/-- The attribute value of a well made value can be read back. -/
theorem sound_ofValue : ∀ (v : Value), v.Regular → ∀ a, ofValue v = .ok a → Sound a
  | .null, _, a, h => by obtain rfl := Except.ok.inj h; trivial
  | .bool b, _, a, h => by obtain rfl := Except.ok.inj h; trivial
  | .number n, hr, a, h => by
    rw [ofValue] at h
    obtain ⟨d, hd, rfl⟩ := Result.map_eq_ok.mp h
    exact storable_digitsOfNumber hr hd
  | .text s, _, a, h => by obtain rfl := Except.ok.inj h; trivial
  | .blob b, _, a, h => by obtain rfl := Except.ok.inj h; trivial
  | .set _ vs, hr, a, h => sound_ofSet hr.1 hr.2 h
  | .map es, hr, a, h => by
    rw [ofValue] at h
    obtain ⟨as, hes, rfl⟩ := Result.map_eq_ok.mp h
    obtain ⟨hkeys, has⟩ := sound_ofEntries es hr.2 as hes
    exact ⟨hkeys ▸ hr.1, has⟩
  | .list vs, hr, a, h | .tuple vs, hr, a, h => by
    rw [ofValue] at h
    obtain ⟨as, hvs, rfl⟩ := Result.map_eq_ok.mp h
    exact sound_ofValues vs hr as hvs
  | .anything, _, a, h | .object _, _, a, h | .record .., _, a, h => by simp [ofValue] at h

theorem sound_ofValues : ∀ (vs : List Value), Value.RegularAll vs → ∀ as, ofValues vs = .ok as →
    SoundAll as
  | [], _, as, h => by obtain rfl := Except.ok.inj h; trivial
  | v :: vs, hr, as, h => by
    rw [ofValues] at h
    obtain ⟨a, hv, h⟩ := Result.bind_eq_ok.mp h
    obtain ⟨bs, hvs, h⟩ := Result.bind_eq_ok.mp h
    obtain rfl := Except.ok.inj h
    exact ⟨sound_ofValue v hr.1 a hv, sound_ofValues vs hr.2 bs hvs⟩

theorem sound_ofEntries : ∀ (es : List (Text × Value)), Value.RegularEntries es → ∀ as,
    ofEntries es = .ok as → keys es = keys as ∧ SoundEntries as
  | [], _, as, h => by obtain rfl := Except.ok.inj h; exact ⟨rfl, trivial⟩
  | (k, v) :: es, hr, as, h => by
    rw [ofEntries] at h
    obtain ⟨a, hv, h⟩ := Result.bind_eq_ok.mp h
    obtain ⟨bs, hes, h⟩ := Result.bind_eq_ok.mp h
    obtain rfl := Except.ok.inj h
    obtain ⟨hkeys, hbs⟩ := sound_ofEntries es hr.2 bs hes
    exact ⟨congrArg (k :: ·) hkeys, sound_ofValue v hr.1 a hv, hbs⟩

end

end TableGateway.Attribute
