import TableGateway.Operation

/-!
# The grammar of condition expressions

An expression is a row of factors with a join before each but the first. A factor stands in one pair
of parentheses, around a test or around an expression. The text of a test is that of its operation
around a name token and value tokens, whose bodies hold none of the characters that the grammar
itself uses. Every text is the text of one expression at most.
-/
namespace TableGateway.Grammar

/-- The characters between and around tokens. -/
def isMark (c : Letter) : Bool :=
  c = ' ' || c = ',' || c = '#' || c = ':' || c = '(' || c = ')'

def Plain (s : Text) : Prop := ∀ c ∈ s.toList, isMark c = false

/-- The body of a token. -/
@[ext] structure PlainName where
  text : Text
  plain : Plain text

/-- What stands before the name token, between it and the values, between two values and at the end. -/
structure Template where
  opening : Text
  middle : Text
  separator : Text
  closing : Text

def template : Operation → Template
  | .equal => ⟨"", " = ", ",", ""⟩
  | .notEqual => ⟨"", " <> ", ",", ""⟩
  | .lowerThan => ⟨"", " < ", ",", ""⟩
  | .lowerOrEqualThan => ⟨"", " <= ", ",", ""⟩
  | .biggerThan => ⟨"", " > ", ",", ""⟩
  | .biggerOrEqualThan => ⟨"", " >= ", ",", ""⟩
  | .beginsWith => ⟨"begins_with(", ", ", ",", ")"⟩
  | .contains => ⟨"contains(", ", ", ",", ")"⟩
  | .notContains => ⟨"not contains(", ", ", ",", ")"⟩
  | .exists => ⟨"attribute_exists(", "", ",", ")"⟩
  | .notExists => ⟨"attribute_not_exists(", "", ",", ")"⟩
  | .oneOf => ⟨"", " in (", ",", ")"⟩
  | .noneOf => ⟨"not ", " in (", ",", ")"⟩
  | .between => ⟨"", " between ", " and ", ""⟩

/-- Does an operation have so many value tokens? -/
def takes : Operation → Nat → Bool
  | .exists, n | .notExists, n => n = 0
  | .oneOf, _ | .noneOf, _ => true
  | .between, n => n = 2
  | _, n => n = 1

/-- A test as its text shows it. The tokens need not belong together. -/
@[ext] structure Leaf where
  operation : Operation
  name : PlainName
  values : List PlainName
  fits : takes operation values.length = true

inductive Factor (α : Type) where
  | test (leaf : α)
  | nested (first : Factor α) (rest : List (Join × Factor α))

structure Phrase (α : Type) where
  first : Factor α
  rest : List (Join × Factor α)

def PlainName.chars (v : PlainName) : List Letter := v.text.toList

def valueToken (v : PlainName) : List Letter := .char ':' :: v.chars

def moreValues (separator : Text) (vs : List PlainName) : List Letter :=
  vs.flatMap fun v => separator.toList ++ valueToken v

def valueRow (separator : Text) : List PlainName → List Letter
  | [] => []
  | v :: vs => valueToken v ++ moreValues separator vs

def Leaf.chars (l : Leaf) : List Letter :=
  let t := template l.operation
  t.opening.toList ++ .char '#' :: l.name.chars ++ t.middle.toList ++ valueRow t.separator l.values
    ++ t.closing.toList

mutual

def Factor.chars : Factor Leaf → List Letter
  | .test l => .char '(' :: l.chars ++ [.char ')']
  | .nested first rest => .char '(' :: first.chars ++ restChars rest ++ [.char ')']

def restChars : List (Join × Factor Leaf) → List Letter
  | [] => []
  | (j, f) :: rest => .char ' ' :: j.name.toList ++ .char ' ' :: f.chars ++ restChars rest

end

def Phrase.chars (p : Phrase Leaf) : List Letter := p.first.chars ++ restChars p.rest

/-- Does a text end here or go on with a character that is in no token body? -/
def Marked (r : List Letter) : Prop := ∀ c, r.head? = some c → isMark c = true

theorem marked_cons {c : Letter} (r : List Letter) (h : isMark c = true) : Marked (c :: r) := by
  intro d hd
  rw [List.head?_cons, Option.some.injEq] at hd
  rw [← hd]
  exact h

/-- Two texts that go on alike after their characters of one class agree in both parts. -/
theorem span_unique {p : Letter → Bool} {a b r s : List Letter}
    (ha : ∀ c ∈ a, p c = true) (hb : ∀ c ∈ b, p c = true)
    (hr : ∀ c, r.head? = some c → p c = false) (hs : ∀ c, s.head? = some c → p c = false)
    (h : a ++ r = b ++ s) : a = b ∧ r = s := by
  have front : ∀ {x t : List Letter}, (∀ c ∈ x, p c = true) →
      (∀ c, t.head? = some c → p c = false) → (x ++ t).takeWhile p = x := by
    intro x t hx ht
    rw [List.takeWhile_append_of_pos hx]
    cases t with
    | nil => simp
    | cons c t => simp [ht c rfl]
  have hab : a = b := by rw [← front ha hr, ← front hb hs, h]
  subst b
  exact ⟨rfl, List.append_cancel_left h⟩

/-- A token body ends where the next mark stands. -/
theorem name_unique {v w : PlainName} {r s : List Letter} (hr : Marked r) (hs : Marked s)
    (h : v.chars ++ r = w.chars ++ s) : v = w ∧ r = s := by
  have hp := span_unique (p := fun c => !isMark c) (a := v.chars) (b := w.chars)
    (by intro c hc; simp [v.plain c hc]) (by intro c hc; simp [w.plain c hc])
    (by intro c hc; simp [hr c hc]) (by intro c hc; simp [hs c hc]) h
  exact ⟨PlainName.ext (Text.toList_inj.mp hp.1), hp.2⟩

/-- Between two values stands a mark, and it is not the one that closes a test. -/
theorem separator_head (o : Operation) :
    ∃ c cs, (template o).separator.toList = c :: cs ∧ isMark c = true ∧ c ≠ ')' := by
  cases o <;> simp [template, isMark]

theorem moreValues_marked (o : Operation) (vs : List PlainName) (r : List Letter) :
    Marked (moreValues (template o).separator vs ++ .char ')' :: r) := by
  cases vs with
  | nil => exact marked_cons _ rfl
  | cons v vs =>
    obtain ⟨c, cs, he, hc, -⟩ := separator_head o
    simp only [moreValues, List.flatMap_cons, he, List.cons_append]
    exact marked_cons _ hc

theorem moreValues_unique (o : Operation) (vs ws : List PlainName) (r s : List Letter)
    (h : moreValues (template o).separator vs ++ .char ')' :: r =
      moreValues (template o).separator ws ++ .char ')' :: s) : vs = ws ∧ r = s := by
  obtain ⟨c, cs, he, -, hc⟩ := separator_head o
  induction vs generalizing ws with
  | nil =>
    cases ws with
    | nil => simpa [moreValues] using h
    | cons w ws =>
      simp only [moreValues, List.flatMap_cons, he, List.flatMap_nil, List.nil_append,
        List.cons_append, List.cons.injEq] at h
      exact absurd h.1.symm hc
  | cons v vs ih =>
    cases ws with
    | nil =>
      simp only [moreValues, List.flatMap_cons, he, List.flatMap_nil, List.nil_append,
        List.cons_append, List.cons.injEq] at h
      exact absurd h.1 hc
    | cons w ws =>
      simp only [moreValues, List.flatMap_cons, valueToken, List.append_assoc,
        List.cons_append] at h
      have h' := List.cons.inj (List.append_cancel_left h)
      obtain ⟨hv, ht⟩ := name_unique (moreValues_marked o vs r) (moreValues_marked o ws s) h'.2
      obtain ⟨hvs, hrs⟩ := ih ws ht
      exact ⟨by rw [hv, hvs], hrs⟩

theorem valueRow_unique (o : Operation) (vs ws : List PlainName) (r s : List Letter)
    (h : valueRow (template o).separator vs ++ .char ')' :: r =
      valueRow (template o).separator ws ++ .char ')' :: s) : vs = ws ∧ r = s := by
  cases vs with
  | nil =>
    cases ws with
    | nil => simpa [valueRow] using h
    | cons w ws => simp [valueRow, valueToken] at h
  | cons v vs =>
    cases ws with
    | nil => simp [valueRow, valueToken] at h
    | cons w ws =>
      simp only [valueRow, valueToken, List.append_assoc, List.cons_append] at h
      obtain ⟨hv, ht⟩ := name_unique (moreValues_marked o vs r) (moreValues_marked o ws s)
        (List.cons.inj h).2
      obtain ⟨hvs, hrs⟩ := moreValues_unique o vs ws r s ht
      exact ⟨by rw [hv, hvs], hrs⟩

/-- What stands around the name token tells the fourteen operations apart. -/
theorem operation_unique {o o' : Operation} (ho : (template o).opening = (template o').opening)
    (hm : (template o).middle = (template o').middle) : o = o' := by
  cases o <;> cases o' <;> simp [template] at ho hm ⊢

theorem opening_free (o : Operation) : ∀ c ∈ (template o).opening.toList, c ≠ '#' := by
  cases o <;> simp [template]

theorem middle_free (o : Operation) :
    ∀ c ∈ (template o).middle.toList, c ≠ ':' ∧ c ≠ ')' := by
  cases o <;> simp [template]

theorem middle_marked (o : Operation) {r : List Letter} (hr : Marked r) :
    Marked ((template o).middle.toList ++ r) := by
  cases o <;> first | exact marked_cons _ rfl | exact hr

/-- The closing text of an operation is nothing or a parenthesis like the one behind the test. -/
theorem closing_comm (o : Operation) (r : List Letter) :
    (template o).closing.toList ++ .char ')' :: r = .char ')' :: ((template o).closing.toList ++ r) := by
  cases o <;> simp [template]

theorem valueRow_head (separator : Text) (vs : List PlainName) (r : List Letter) :
    ∃ c t, valueRow separator vs ++ .char ')' :: r = c :: t ∧ (c = ':' ∨ c = ')') := by
  cases vs with
  | nil => exact ⟨')', r, rfl, .inr rfl⟩
  | cons v vs => exact ⟨':', _, rfl, .inl rfl⟩

/-- No test, behind which its parenthesis closes, begins another one. -/
theorem leaf_unique (l m : Leaf) (r s : List Letter)
    (h : l.chars ++ .char ')' :: r = m.chars ++ .char ')' :: s) : l = m ∧ r = s := by
  simp only [Leaf.chars, List.append_assoc, List.cons_append, closing_comm] at h
  obtain ⟨hopening, h⟩ := span_unique (p := fun c => c ≠ '#')
    (by simpa using opening_free l.operation) (by simpa using opening_free m.operation)
    (by simp) (by simp) h
  obtain ⟨c, t, hl, hc⟩ := valueRow_head (template l.operation).separator l.values
    ((template l.operation).closing.toList ++ r)
  obtain ⟨d, u, hm, hd⟩ := valueRow_head (template m.operation).separator m.values
    ((template m.operation).closing.toList ++ s)
  have mark : ∀ {c : Letter}, c = ':' ∨ c = ')' → isMark c = true := by
    rintro c (rfl | rfl) <;> rfl
  obtain ⟨hname, h⟩ := name_unique
    (middle_marked _ (by rw [hl]; exact marked_cons _ (mark hc)))
    (middle_marked _ (by rw [hm]; exact marked_cons _ (mark hd))) (List.cons.inj h).2
  obtain ⟨hmiddle, h⟩ := span_unique (p := fun c => c ≠ ':' && c ≠ ')')
    (by simpa using middle_free l.operation) (by simpa using middle_free m.operation)
    (by rw [hl]; rintro _ ⟨⟩; rcases hc with rfl | rfl <;> rfl)
    (by rw [hm]; rintro _ ⟨⟩; rcases hd with rfl | rfl <;> rfl) h
  have ho : l.operation = m.operation :=
    operation_unique (Text.toList_inj.mp hopening) (Text.toList_inj.mp hmiddle)
  rw [ho] at h
  obtain ⟨hvalues, h⟩ := valueRow_unique _ _ _ _ _ h
  exact ⟨Leaf.ext ho hname hvalues, List.append_cancel_left h⟩

theorem opening_head (o : Operation) : (template o).opening.toList = [] ∨
    ∃ c t, (template o).opening.toList = c :: t ∧ c ≠ '(' := by
  cases o <;> simp [template]

/-- A test does not begin with a parenthesis, as every factor does. -/
theorem leaf_head (l : Leaf) (r : List Letter) : ∃ c t, l.chars ++ r = c :: t ∧ c ≠ '(' := by
  simp only [Leaf.chars, List.append_assoc]
  rcases opening_head l.operation with he | ⟨c, t, he, hc⟩
  · rw [he]
    exact ⟨'#', _, rfl, by decide⟩
  · rw [he]
    exact ⟨c, _, rfl, hc⟩

theorem factor_head (f : Factor Leaf) : ∃ t, f.chars = .char '(' :: t := by
  cases f <;> exact ⟨_, rfl⟩

/-- A join, behind the space that stands before it. -/
theorem join_unique {j k : Join} {r s : List Letter}
    (h : j.name.toList ++ .char ' ' :: r = k.name.toList ++ .char ' ' :: s) : j = k ∧ r = s := by
  cases j <;> cases k <;> simp_all [Join.name]

mutual

/-- No factor begins another one. The cases follow the factor on the left: tests end at their own
parenthesis, and a nested expression at the first that no factor in it closes. -/
theorem factor_unique : (f g : Factor Leaf) → (r s : List Letter) →
    f.chars ++ r = g.chars ++ s → f = g ∧ r = s
  | .test l, .test m, r, s, h => by
    simp only [Factor.chars, List.cons_append, List.append_assoc, List.nil_append] at h
    obtain ⟨rfl, hrs⟩ := leaf_unique l m r s (List.cons.inj h).2
    exact ⟨rfl, hrs⟩
  | .test l, .nested g gs, r, s, h => by
    obtain ⟨c, t, hl, hc⟩ := leaf_head l (.char ')' :: r)
    obtain ⟨u, hg⟩ := factor_head g
    simp only [Factor.chars, List.cons_append, List.append_assoc, List.nil_append, hl, hg] at h
    exact absurd (List.cons.inj (List.cons.inj h).2).1 hc
  | .nested f fs, .test m, r, s, h => by
    obtain ⟨c, t, hm, hc⟩ := leaf_head m (.char ')' :: s)
    obtain ⟨u, hf⟩ := factor_head f
    simp only [Factor.chars, List.cons_append, List.append_assoc, List.nil_append, hm, hf] at h
    exact absurd (List.cons.inj (List.cons.inj h).2).1.symm hc
  | .nested f fs, .nested g gs, r, s, h => by
    simp only [Factor.chars, List.cons_append, List.append_assoc, List.nil_append] at h
    obtain ⟨hf, hrest⟩ := factor_unique f g _ _ (List.cons.inj h).2
    obtain ⟨hfs, hend⟩ := rest_unique fs gs (.char ')' :: r) (.char ')' :: s) (by simp) (by simp) hrest
    exact ⟨by rw [hf, hfs], (List.cons.inj hend).2⟩

/-- A row of joined factors goes on as long as a space follows. -/
theorem rest_unique : (fs gs : List (Join × Factor Leaf)) → (r s : List Letter) →
    r.head? ≠ some (.char ' ') → s.head? ≠ some (.char ' ') →
    restChars fs ++ r = restChars gs ++ s → fs = gs ∧ r = s
  | [], [], r, s, _, _, h => ⟨rfl, h⟩
  | [], (j, g) :: gs, r, s, hr, _, h => by
    simp only [restChars, List.nil_append, List.cons_append] at h
    exact absurd (by rw [h]; rfl) hr
  | (j, f) :: fs, [], r, s, _, hs, h => by
    simp only [restChars, List.nil_append, List.cons_append] at h
    exact absurd (by rw [← h]; rfl) hs
  | (j, f) :: fs, (k, g) :: gs, r, s, hr, hs, h => by
    simp only [restChars, List.cons_append, List.append_assoc] at h
    obtain ⟨hj, hf⟩ := join_unique (List.cons.inj h).2
    obtain ⟨hf, hrest⟩ := factor_unique f g _ _ hf
    obtain ⟨hfs, hend⟩ := rest_unique fs gs r s hr hs hrest
    exact ⟨by rw [hj, hf, hfs], hend⟩

end

/-- No text is that of two expressions. -/
theorem phrase_unique {p q : Phrase Leaf} (h : p.chars = q.chars) : p = q := by
  obtain ⟨f, fs⟩ := p
  obtain ⟨g, gs⟩ := q
  simp only [Phrase.chars] at h
  obtain ⟨hf, hrest⟩ := factor_unique f g _ _ h
  obtain ⟨hfs, -⟩ := rest_unique fs gs [] [] (by simp) (by simp) (by simpa using hrest)
  rw [hf, hfs]

end TableGateway.Grammar
