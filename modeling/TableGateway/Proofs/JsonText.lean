import TableGateway.Json.Reader
import TableGateway.Json.Writer
import TableGateway.Proofs.Entries

/-!
# Documents read back

A document without numbers whose keys are distinct is read back from its text. The reader needs fuel
for two steps a character, which is what it starts with.
-/
namespace TableGateway.Json

mutual

/-- Is a document one without numbers in which no map has a key twice? -/
def Textual : Json → Prop
  | .null | .bool _ | .text _ => True
  | .number _ => False
  | .array js => TextualAll js
  | .object es => (Entries.keys es).Nodup ∧ TextualEntries es

def TextualAll : List Json → Prop
  | [] => True
  | j :: js => Textual j ∧ TextualAll js

def TextualEntries : List (Text × Json) → Prop
  | [] => True
  | (_, j) :: es => Textual j ∧ TextualEntries es

end

theorem textualAll_iff (js : List Json) : TextualAll js ↔ ∀ j ∈ js, Textual j := by
  induction js with
  | nil => simp [TextualAll]
  | cons j js ih => simp [TextualAll, ih]

theorem textualEntries_iff (es : List (Text × Json)) :
    TextualEntries es ↔ ∀ e ∈ es, Textual e.2 := by
  induction es with
  | nil => simp [TextualEntries]
  | cons e es ih => simp [TextualEntries, ih]

theorem unitWith_eq {n : Nat} (h : isHighHalf n = false) (rest : List Letter) :
    unitWith n rest = some (Letter.ofNat n, rest) := by
  unfold unitWith
  split
  · rw [if_neg (by simp [h])]
  · rfl

/-- A control character by its number in four digits. -/
theorem readText_unit {n : Nat} (h : n < 32) (fuel : Nat) (rest : List Letter) :
    readText (fuel + 1) (.char '\\' :: .char 'u' :: (Text.hex 4 n).map .char ++ rest) =
      (readText fuel rest).map fun p => (Letter.ofNat n :: p.1, p.2) := by
  have hall : ∀ n ∈ List.range 32, ∃ a b c d, (Text.hex 4 n).map Letter.char = [a, b, c, d] ∧
      hexFour? a b c d = some n ∧ isHighHalf n = false := by
    intro n hn
    refine ⟨_, _, _, _, rfl, ?_⟩
    revert n
    decide
  obtain ⟨a, b, c, d, hhex, hfour, hhigh⟩ := hall n (List.mem_range.mpr h)
  rw [hhex, List.cons_append, List.cons_append, readText]
  simp only [List.cons_append, List.nil_append, escaped?, hfour, Option.bind_eq_bind,
    Option.bind_some, unitWith_eq hhigh, Option.pure_def]
  cases readText fuel rest <;> rfl

/-- A character with a short name is read back from it. -/
theorem readText_short {e c : Letter} (he : e ≠ 'u') (h : shortEscape? e = some c) (fuel : Nat)
    (rest : List Letter) : readText (fuel + 1) (.char '\\' :: e :: rest) =
      (readText fuel rest).map fun p => (c :: p.1, p.2) := by
  have hescaped : escaped? (e :: rest) = some (c, rest) := by
    unfold escaped?
    split
    · next heq => exact absurd (List.cons.inj heq).1 he
    · next heq =>
      obtain ⟨rfl, rfl⟩ := List.cons.inj heq
      rw [h]
      rfl
    · next heq => exact absurd heq (by simp)
  rw [readText, hescaped]
  simp only [Option.bind_eq_bind, Option.bind_some, Option.pure_def]
  cases readText fuel rest <;> rfl

/-- A character that needs no escape is read as it stands. -/
theorem readText_plain {c : Letter} (hquote : c ≠ '"') (hslash : c ≠ '\\') (hlow : ¬c.toNat < 0x20)
    (fuel : Nat) (rest : List Letter) :
    readText (fuel + 1) (c :: rest) = (readText fuel rest).map fun p => (c :: p.1, p.2) := by
  rw [readText, if_neg hlow]
  · cases readText fuel rest <;> rfl
  · exact hquote
  · exact hslash

/-- A control character with a short name is read back from it. -/
theorem readText_named {c e : Letter} {n : Nat} (h : c.toNat = n) (he : e ≠ 'u')
    (hshort : shortEscape? e = some (Letter.ofNat n)) (fuel : Nat) (rest : List Letter) :
    readText (fuel + 1) (.char '\\' :: e :: rest) =
      (readText fuel rest).map fun p => (c :: p.1, p.2) := by
  obtain rfl : c = Letter.ofNat n := by rw [← h, Letter.ofNat_toNat]
  exact readText_short he hshort fuel rest

/-- Each character is read back from what is written of it, in one step. -/
theorem readText_escapeLetter (c : Letter) (fuel : Nat) (rest : List Letter) :
    readText (fuel + 1) (escapeLetter c ++ rest) =
      (readText fuel rest).map fun p => (c :: p.1, p.2) := by
  unfold escapeLetter
  extract_lets n
  split
  · next h =>
    subst h
    exact readText_short (by decide) rfl fuel rest
  split
  · next h =>
    subst h
    exact readText_short (by decide) rfl fuel rest
  split
  · next h => exact readText_named h (by decide) rfl fuel rest
  split
  · next h => exact readText_named h (by decide) rfl fuel rest
  split
  · next h => exact readText_named h (by decide) rfl fuel rest
  split
  · next h => exact readText_named h (by decide) rfl fuel rest
  split
  · next h => exact readText_named h (by decide) rfl fuel rest
  split
  · next h => rw [readText_unit h, Letter.ofNat_toNat]
  · next hquote hslash _ _ _ _ _ hlow => exact readText_plain hquote hslash hlow fuel rest

theorem length_escapeLetter_pos (c : Letter) : 0 < (escapeLetter c).length := by
  unfold escapeLetter
  grind

/-- A text is read up to its closing quote, with one step for each character and one for the quote. -/
theorem readText_escaped (cs : List Letter) {fuel : Nat}
    (h : (cs.flatMap escapeLetter).length < fuel) (rest : List Letter) :
    readText fuel (cs.flatMap escapeLetter ++ .char '"' :: rest) = some (cs, rest) := by
  induction cs generalizing fuel with
  | nil =>
    obtain ⟨fuel, rfl⟩ := Nat.exists_eq_add_of_lt h
    simp [readText]
  | cons c cs ih =>
    have hpos := length_escapeLetter_pos c
    simp only [List.flatMap_cons, List.length_append] at h
    obtain ⟨fuel, rfl⟩ : ∃ k, fuel = k + 1 := ⟨fuel - 1, by omega⟩
    rw [List.flatMap_cons, List.append_assoc, readText_escapeLetter, ih (by omega)]
    rfl

/-- The reader of a whole text needs one step more than the text has characters. -/
theorem readText_writeText (s : Text) {fuel : Nat} (h : (writeText s).length ≤ fuel + 1)
    (rest : List Letter) : ∃ body, writeText s = .char '"' :: body ∧
      readText fuel (body ++ rest) = some (s.toList, rest) := by
  refine ⟨s.toList.flatMap escapeLetter ++ [.char '"'], rfl, ?_⟩
  have hlength : (s.toList.flatMap escapeLetter).length < fuel := by
    simp only [writeText, List.length_cons, List.length_append, List.length_nil] at h
    omega
  rw [List.append_assoc]
  exact readText_escaped s.toList hlength rest

/-- The characters with which a document without numbers can begin. -/
def openings : List Letter := [.char 'n', 't', 'f', '"', '[', .char '{']

theorem write_opening {j : Json} (h : j.Textual) : ∃ c cs, write j = c :: cs ∧ c ∈ openings := by
  cases j with
  | null => exact ⟨_, _, rfl, by decide⟩
  | bool b => cases b <;> exact ⟨_, _, rfl, by decide⟩
  | number n => exact absurd h (by simp [Textual])
  | text s => exact ⟨_, _, rfl, by decide⟩
  | array js => exact ⟨_, _, rfl, by decide⟩
  | object es => exact ⟨_, _, rfl, by decide⟩

theorem skipBlank_opening {c : Letter} (h : c ∈ openings) (cs : List Letter) :
    skipBlank (c :: cs) = c :: cs := by
  have hall : openings.all (fun c => !isBlank c) = true := by decide
  rw [skipBlank, List.dropWhile_cons_of_neg]
  simpa using List.all_eq_true.mp hall c h

theorem writeItems_opening {j : Json} (h : j.Textual) (js : List Json) :
    ∃ c cs, writeItems (j :: js) = c :: cs ∧ c ∈ openings := by
  obtain ⟨c, cs, hc, hopen⟩ := write_opening h
  cases js with
  | nil => exact ⟨c, cs, hc, hopen⟩
  | cons j' js => exact ⟨c, cs ++ .char ',' :: writeItems (j' :: js), by simp [writeItems, hc], hopen⟩

theorem writeEntries_opening (e : Text × Json) (es : List (Text × Json)) :
    ∃ cs, writeEntries (e :: es) = .char '"' :: cs := by
  cases es <;> exact ⟨_, rfl⟩

/-- A text is read back as a document. -/
theorem readValue_text (s : Text) {fuel : Nat} (h : (writeText s).length ≤ fuel + 1)
    (rest : List Letter) : readValue (fuel + 1) (writeText s ++ rest) = some (.text s, rest) := by
  obtain ⟨body, hbody, hread⟩ := readText_writeText s h rest
  rw [hbody, List.cons_append, readValue, hread]
  simp

/-- Behind the bracket of a list that is not empty its members are read. -/
theorem readValue_items {c : Letter} (h : c ∈ openings) (fuel : Nat) (cs : List Letter) :
    readValue (fuel + 1) (.char '[' :: c :: cs) =
      (readItems fuel (c :: cs)).map fun p => (array p.1, p.2) := by
  rw [readValue, skipBlank_opening h]
  split
  · next heq =>
    obtain ⟨rfl, -⟩ := List.cons.inj heq
    exact absurd h (by decide)
  · cases readItems fuel (c :: cs) <;> rfl

/-- Behind the brace of a map that is not empty its entries are read. -/
theorem readValue_entries (fuel : Nat) (cs : List Letter) :
    readValue (fuel + 1) (.char '{' :: .char '"' :: cs) =
      (readEntries fuel (.char '"' :: cs)).map fun p => (object (Entries.ofPairs p.1), p.2) := by
  rw [readValue, skipBlank_opening (by decide)]
  split
  · next heq => exact absurd (List.cons.inj heq).1 (by decide)
  · cases readEntries fuel (.char '"' :: cs) <;> rfl

theorem skipBlank_mark {c : Letter} (h : isBlank c = false) (cs : List Letter) :
    skipBlank (c :: cs) = c :: cs := by
  rw [skipBlank, List.dropWhile_cons_of_neg]
  simpa using h

theorem readItems_last {j : Json} {fuel : Nat} {cs rest : List Letter}
    (h : readValue fuel cs = some (j, .char ']' :: rest)) :
    readItems (fuel + 1) cs = some ([j], rest) := by
  rw [readItems, h]
  simp [skipBlank_mark (c := ']') (by decide)]

/-- A member with a comma behind it is read before the rest. -/
theorem readItems_more {c : Letter} (hc : c ∈ openings) {j : Json} {fuel : Nat} {cs more : List Letter}
    (h : readValue fuel cs = some (j, .char ',' :: c :: more)) :
    readItems (fuel + 1) cs = (readItems fuel (c :: more)).map fun p => (j :: p.1, p.2) := by
  rw [readItems, h]
  simp only [Option.bind_eq_bind, Option.bind_some, skipBlank_mark (c := ',') (by decide),
    skipBlank_opening hc]
  cases readItems fuel (c :: more) <;> rfl

theorem readEntries_last (k : Text) {j : Json} {fuel : Nat} {rest : List Letter}
    (hk : (writeText k).length ≤ fuel + 1) (hj : j.Textual)
    (h : readValue fuel (write j ++ .char '}' :: rest) = some (j, .char '}' :: rest)) :
    readEntries (fuel + 1) (writeText k ++ .char ':' :: (write j ++ .char '}' :: rest)) =
      some ([(k, j)], rest) := by
  obtain ⟨body, hbody, hread⟩ := readText_writeText k hk (.char ':' :: (write j ++ .char '}' :: rest))
  obtain ⟨c, cs, hc, hopen⟩ := write_opening hj
  have hvalue : skipBlank (write j ++ .char '}' :: rest) = write j ++ .char '}' :: rest := by
    rw [hc]
    exact skipBlank_opening hopen _
  rw [hbody, List.cons_append, readEntries, hread]
  simp [skipBlank_mark (c := ':') (by decide), hvalue, h, skipBlank_mark (c := '}') (by decide)]

/-- An entry with a comma behind it is read before the rest. -/
theorem readEntries_more (k : Text) {j : Json} {fuel : Nat} {more : List Letter}
    (hk : (writeText k).length ≤ fuel + 1) (hj : j.Textual)
    (h : readValue fuel (write j ++ .char ',' :: .char '"' :: more) =
      some (j, .char ',' :: .char '"' :: more)) :
    readEntries (fuel + 1) (writeText k ++ .char ':' :: (write j ++ .char ',' :: .char '"' :: more)) =
      (readEntries fuel (.char '"' :: more)).map fun p => ((k, j) :: p.1, p.2) := by
  obtain ⟨body, hbody, hread⟩ :=
    readText_writeText k hk (.char ':' :: (write j ++ .char ',' :: .char '"' :: more))
  obtain ⟨c, cs, hc, hopen⟩ := write_opening hj
  have hvalue : skipBlank (write j ++ .char ',' :: .char '"' :: more) =
      write j ++ .char ',' :: .char '"' :: more := by
    rw [hc]
    exact skipBlank_opening hopen _
  rw [hbody, List.cons_append, readEntries, hread]
  simp only [Option.bind_eq_bind, Option.bind_some, skipBlank_mark (c := ':') (by decide), hvalue,
    h, skipBlank_mark (c := ',') (by decide), skipBlank_opening (c := '"') (by decide),
    Text.ofList_toList]
  cases readEntries fuel (.char '"' :: more) <;> rfl

mutual

/-- A document is read off the front of a text, whatever comes behind it. -/
theorem readValue_write : ∀ (j : Json), j.Textual → ∀ fuel : Nat, 2 * (write j).length ≤ fuel →
    ∀ rest, readValue fuel (write j ++ rest) = some (j, rest)
  | j, h, 0, hf, rest => by
    obtain ⟨c, cs, hc, -⟩ := write_opening h
    simp [hc] at hf
  | .null, _, fuel + 1, _, rest => by simp [write, readValue, readAtom, after?]
  | .bool true, _, fuel + 1, _, rest => by simp [write, readValue, readAtom, after?]
  | .bool false, _, fuel + 1, _, rest => by simp [write, readValue, readAtom, after?]
  | .text s, _, fuel + 1, hf, rest => by
    rw [write] at hf ⊢
    exact readValue_text s (by omega) rest
  | .array [], _, fuel + 1, _, rest => by
    simp [write, writeItems, readValue, skipBlank_mark (c := ']') (by decide)]
  | .array (j :: js), h, fuel + 1, hf, rest => by
    obtain ⟨c, cs, hc, hopen⟩ := writeItems_opening h.1 js
    simp only [write, List.length_cons, List.length_append] at hf
    have hitems := readItems_write j js h fuel (by omega) rest
    have happend :
        write (.array (j :: js)) ++ rest = .char '[' :: (writeItems (j :: js) ++ .char ']' :: rest) := by
      simp [write]
    rw [happend]
    rw [hc, List.cons_append] at hitems ⊢
    rw [readValue_items hopen, hitems]
    rfl
  | .object [], _, fuel + 1, _, rest => by
    simp [write, writeEntries, readValue, skipBlank_mark (c := '}') (by decide)]
  | .object (e :: es), h, fuel + 1, hf, rest => by
    obtain ⟨cs, hc⟩ := writeEntries_opening e es
    simp only [write, List.length_cons, List.length_append] at hf
    have hentries := readEntries_write e es h.2 fuel (by omega) rest
    have happend : write (.object (e :: es)) ++ rest =
        .char '{' :: (writeEntries (e :: es) ++ .char '}' :: rest) := by
      simp [write]
    rw [happend]
    rw [hc, List.cons_append] at hentries ⊢
    rw [readValue_entries, hentries, Option.map_some, Entries.ofPairs_eq h.1]

theorem readItems_write : ∀ (j : Json) (js : List Json), TextualAll (j :: js) → ∀ fuel : Nat,
    2 * (writeItems (j :: js)).length < fuel →
    ∀ rest, readItems fuel (writeItems (j :: js) ++ .char ']' :: rest) = some (j :: js, rest)
  | j, [], h, fuel + 1, hf, rest => by
    simp only [writeItems] at hf ⊢
    exact readItems_last (readValue_write j h.1 fuel (by omega) (.char ']' :: rest))
  | j, j' :: js, h, fuel + 1, hf, rest => by
    obtain ⟨c, cs, hc, hopen⟩ := writeItems_opening h.2.1 js
    have hsplit : writeItems (j :: j' :: js) = write j ++ .char ',' :: writeItems (j' :: js) := by
      simp [writeItems]
    rw [hsplit, List.length_append, List.length_cons] at hf
    have hj := readValue_write j h.1 fuel (by omega)
      (.char ',' :: (writeItems (j' :: js) ++ .char ']' :: rest))
    have hjs := readItems_write j' js h.2 fuel (by omega) rest
    rw [hsplit, List.append_assoc, List.cons_append]
    rw [hc, List.cons_append] at hj hjs ⊢
    rw [readItems_more hopen hj, hjs]
    rfl

theorem readEntries_write : ∀ (e : Text × Json) (es : List (Text × Json)),
    TextualEntries (e :: es) → ∀ fuel : Nat, 2 * (writeEntries (e :: es)).length < fuel →
    ∀ rest, readEntries fuel (writeEntries (e :: es) ++ .char '}' :: rest) = some (e :: es, rest)
  | (k, j), [], h, fuel + 1, hf, rest => by
    simp only [writeEntries, List.length_append, List.length_cons] at hf
    rw [writeEntries, List.append_assoc, List.cons_append]
    exact readEntries_last k (by omega) h.1 (readValue_write j h.1 fuel (by omega) (.char '}' :: rest))
  | (k, j), e :: es, h, fuel + 1, hf, rest => by
    obtain ⟨cs, hc⟩ := writeEntries_opening e es
    have hsplit : writeEntries ((k, j) :: e :: es) =
        writeText k ++ .char ':' :: (write j ++ .char ',' :: writeEntries (e :: es)) := by
      simp [writeEntries]
    rw [hsplit] at hf
    simp only [List.length_append, List.length_cons] at hf
    have hj := readValue_write j h.1 fuel (by omega)
      (.char ',' :: (writeEntries (e :: es) ++ .char '}' :: rest))
    have hes := readEntries_write e es h.2 fuel (by omega) rest
    rw [hsplit, List.append_assoc, List.cons_append, List.append_assoc, List.cons_append]
    rw [hc, List.cons_append] at hj hes ⊢
    rw [readEntries_more k (by omega) h.1 hj, hes]
    rfl

end

/-- A document without numbers is read back from its text. -/
theorem read_write {j : Json} (h : j.Textual) : read (write j) = some j := by
  obtain ⟨c, cs, hc, hopen⟩ := write_opening h
  have hvalue := readValue_write j h (2 * (write j).length + 2) (by omega) []
  rw [List.append_nil] at hvalue
  have hskip : skipBlank (write j) = write j := by
    rw [hc]
    exact skipBlank_opening hopen cs
  rw [read, hskip, hvalue]
  rfl

end TableGateway.Json
