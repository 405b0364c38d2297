import TableGateway.Condition.Expression
import TableGateway.Proofs.Grammar
import TableGateway.Proofs.Outcomes

/-!
# What an expression says of its conditions

The text of a forest of conditions is that of its outline: the conditions by operation, property and
number of operands, in their order, nesting and joins. What has no condition in it is left out, a
group of one member is that member behind the join of the group, and the first join of a row is not
written.
-/
namespace TableGateway

open Grammar

/-- What the text of a condition shows of it. -/
@[ext] structure Stub where
  operation : Operation
  property : Text
  operands : Nat
  fits : takes operation operands = true

def Test.operandCount : Test → Nat
  | .compare .. => 1
  | .present | .absent => 0
  | .oneOf vs | .noneOf vs => vs.length
  | .between .. => 2

theorem Test.takes_operandCount (t : Test) : takes t.operation t.operandCount = true := by
  cases t with
  | compare how v => cases how <;> rfl
  | _ => rfl

def Condition.stub (c : Condition) : Stub :=
  ⟨c.test.operation, c.property.display, c.test.operandCount, c.test.takes_operandCount⟩

namespace Tree

mutual

/-- What the text of a tree shows of it; nothing where it has no condition. -/
def outline : Tree → Option (Factor Stub)
  | leaf c => some (.test c.stub)
  | group [t] _ => outline t
  | group ts _ =>
    match outlineAll ts with
    | [] => none
    | (_, f) :: rest => some (.nested f rest)

/-- The members of a row that have conditions, each with its own join. -/
def outlineAll : List Tree → List (Join × Factor Stub)
  | [] => []
  | t :: ts =>
    match outline t with
    | none => outlineAll ts
    | some f => (t.join, f) :: outlineAll ts

end

/-- A whole row: the join of the member that comes first is dropped. -/
def phrase (ts : List Tree) : Option (Phrase Stub) :=
  match outlineAll ts with
  | [] => none
  | (_, f) :: rest => some ⟨f, rest⟩

end Tree

namespace Grammar

variable {α β γ : Type}

mutual

def Factor.map (g : α → β) : Factor α → Factor β
  | .test a => .test (g a)
  | .nested first rest => .nested (first.map g) (mapRest g rest)

def mapRest (g : α → β) : List (Join × Factor α) → List (Join × Factor β)
  | [] => []
  | (j, f) :: rest => (j, f.map g) :: mapRest g rest

end

def Phrase.map (g : α → β) (p : Phrase α) : Phrase β := ⟨p.first.map g, mapRest g p.rest⟩

mutual

def Factor.leaves : Factor α → List α
  | .test a => [a]
  | .nested first rest => first.leaves ++ restLeaves rest

def restLeaves : List (Join × Factor α) → List α
  | [] => []
  | (_, f) :: rest => f.leaves ++ restLeaves rest

end

def Phrase.leaves (p : Phrase α) : List α := p.first.leaves ++ restLeaves p.rest

mutual

theorem Factor.map_map (g : α → β) (g' : β → α) :
    (f : Factor α) → (∀ a ∈ f.leaves, g' (g a) = a) → (f.map g).map g' = f
  | .test a, h => by simp [Factor.map, h a (by simp [Factor.leaves])]
  | .nested first rest, h => by
    simp only [Factor.leaves, List.mem_append] at h
    rw [Factor.map, Factor.map, Factor.map_map g g' first fun a ha => h a (.inl ha),
      mapRest_mapRest g g' rest fun a ha => h a (.inr ha)]

theorem mapRest_mapRest (g : α → β) (g' : β → α) : (rest : List (Join × Factor α)) →
    (∀ a ∈ restLeaves rest, g' (g a) = a) → mapRest g' (mapRest g rest) = rest
  | [], _ => rfl
  | (j, f) :: rest, h => by
    simp only [restLeaves, List.mem_append] at h
    rw [mapRest, mapRest, Factor.map_map g g' f fun a ha => h a (.inl ha),
      mapRest_mapRest g g' rest fun a ha => h a (.inr ha)]

end

theorem Phrase.map_map (g : α → β) (g' : β → α) (p : Phrase α)
    (h : ∀ a ∈ p.leaves, g' (g a) = a) : (p.map g).map g' = p := by
  simp only [Phrase.leaves, List.mem_append] at h
  simp only [Phrase.map, Factor.map_map g g' p.first fun a ha => h a (.inl ha),
    mapRest_mapRest g g' p.rest fun a ha => h a (.inr ha)]

end Grammar

theorem plain_append {s t : Text} (hs : Plain s) (ht : Plain t) : Plain (s ++ t) := by
  intro c hc
  rw [Text.toList_append, List.mem_append] at hc
  exact hc.elim (hs c) (ht c)

theorem plain_toString (n : Nat) : Plain (toString n) := by
  intro l hl
  rw [Text.toList_whole, List.mem_map] at hl
  obtain ⟨c, hc, rfl⟩ := hl
  have hd : c.isDigit = true := by
    rw [show (toString n).toList = Nat.toDigits 10 n from String.toList_ofList] at hc
    exact Nat.isDigit_of_mem_toDigits (by decide) (by decide) hc
  simp only [isMark, Letter.char.injEq, Bool.or_eq_false_iff, decide_eq_false_iff_not]
  refine ⟨⟨⟨⟨⟨?_, ?_⟩, ?_⟩, ?_⟩, ?_⟩, ?_⟩ <;> rintro rfl <;> exact absurd hd (by decide)

/-- A text without its marks. -/
def Grammar.PlainName.of (s : Text) : PlainName where
  text := Text.ofList (s.toList.filter fun c => !isMark c)
  plain := by
    intro c hc
    rw [Text.toList_ofList, List.mem_filter] at hc
    simpa using hc.2

theorem chars_of {s : Text} (h : Plain s) : (PlainName.of s).chars = s.toList := by
  rw [PlainName.chars, PlainName.of, Text.toList_ofList, List.filter_eq_self]
  intro c hc
  simp [h c hc]

namespace Stub

/-- The bodies of the value tokens of a condition. -/
def bodies (stem : Text) (s : Stub) : List Text :=
  let body := stem ++ s.property
  match s.operation with
  | .exists | .notExists => []
  | .oneOf | .noneOf => (List.range s.operands).map fun i => body ++ "_" ++ toString i
  | .between => [body ++ "_start", body ++ "_end"]
  | _ => [body]

theorem length_bodies (stem : Text) (s : Stub) : (s.bodies stem).length = s.operands := by
  obtain ⟨o, property, n, fits⟩ := s
  cases o with
  | oneOf | noneOf => simp [bodies]
  | _ => exact (of_decide_eq_true fits).symm

theorem plain_bodies {stem : Text} {s : Stub} (h : Plain (stem ++ s.property)) :
    ∀ b ∈ s.bodies stem, Plain b := by
  obtain ⟨o, property, n, fits⟩ := s
  have indexed : ∀ i : Nat, Plain (stem ++ property ++ "_" ++ toString i) := fun i =>
    plain_append (plain_append h (by simp [Plain, isMark])) (plain_toString i)
  have start : Plain (stem ++ property ++ "_start") := plain_append h (by simp [Plain, isMark])
  have stop : Plain (stem ++ property ++ "_end") := plain_append h (by simp [Plain, isMark])
  cases o <;> simp_all [bodies]

/-- The test that the text of a condition shows. -/
def leaf (stem : Text) (s : Stub) : Leaf where
  operation := s.operation
  name := .of (stem ++ s.property)
  values := (s.bodies stem).map .of
  fits := by rw [List.length_map, length_bodies]; exact s.fits

end Stub

/-- What a test was written for, its tokens having the given stem. -/
def Grammar.Leaf.stub (stem : Text) (l : Leaf) : Stub :=
  ⟨l.operation, Text.ofList (l.name.chars.drop stem.toList.length), l.values.length, l.fits⟩

theorem stub_leaf {stem : Text} {s : Stub} (h : Plain (stem ++ s.property)) :
    (s.leaf stem).stub stem = s := by
  apply Stub.ext
  · rfl
  · simp [Leaf.stub, Stub.leaf, chars_of h]
  · simp [Leaf.stub, Stub.leaf, Stub.length_bodies]

theorem moreValues_of (separator first : Text) (bodies : List Text)
    (h : ∀ b ∈ bodies, Plain b) :
    (separator.intercalate (first :: bodies.map ((":" : Text) ++ ·))).toList =
      first.toList ++ moreValues separator (bodies.map .of) := by
  induction bodies generalizing first with
  | nil => simp [moreValues]
  | cons b bs ih =>
    rw [List.map_cons, Text.intercalate_cons_cons, Text.toList_append, Text.toList_append,
      ih (":" ++ b) fun c hc => h c (by simp [hc])]
    simp [moreValues, valueToken, chars_of (h b (by simp))]

/-- The row of value tokens of an operation, as the writer puts it between the separators. -/
theorem valueRow_of (separator : Text) (bodies : List Text) (h : ∀ b ∈ bodies, Plain b) :
    (separator.intercalate (bodies.map ((":" : Text) ++ ·))).toList =
      valueRow separator (bodies.map .of) := by
  cases bodies with
  | nil => simp [valueRow]
  | cons b bs =>
    rw [List.map_cons, moreValues_of separator (":" ++ b) bs fun c hc => h c (by simp [hc])]
    simp [valueRow, valueToken, chars_of (h b (by simp))]

namespace Encoder

@[simp] theorem withStem_name (stem property : Text) :
    (withStem stem).name property = "#" ++ (stem ++ property) := rfl

@[simp] theorem withStem_value (stem property : Text) :
    (withStem stem).value property = ":" ++ (stem ++ property) := rfl

@[simp] theorem withStem_lowValue (stem property : Text) :
    (withStem stem).lowValue property = ":" ++ (stem ++ property ++ "_start") := by
  simp [lowValue, Text.append_assoc]

@[simp] theorem withStem_highValue (stem property : Text) :
    (withStem stem).highValue property = ":" ++ (stem ++ property ++ "_end") := by
  simp [highValue, Text.append_assoc]

@[simp] theorem withStem_memberValues (stem property : Text) (n : Nat) :
    (withStem stem).memberValues property n =
      ((List.range n).map fun i => stem ++ property ++ "_" ++ toString i).map
        ((":" : Text) ++ ·) := by
  rw [memberValues, List.map_map]
  apply List.map_congr_left
  intro i hi
  simp [memberValue, Text.append_assoc]

end Encoder

/-- The text of a condition is that of its operation around its own tokens. -/
theorem fragment_template (stem : Text) (c : Condition) :
    c.fragment (.withStem stem) =
      (template c.test.operation).opening ++ ("#" ++ (stem ++ c.property.display))
        ++ (template c.test.operation).middle
        ++ (template c.test.operation).separator.intercalate
          ((c.stub.bodies stem).map ((":" : Text) ++ ·))
        ++ (template c.test.operation).closing := by
  obtain ⟨property, test, join⟩ := c
  cases test with
  | compare how v =>
    cases how <;>
      simp [Condition.fragment, Condition.stub, Stub.bodies, Test.operation, Comparison.operation,
        template, Text.append_assoc]
  | _ =>
    simp [Condition.fragment, Condition.stub, Stub.bodies, Test.operation, template,
      Test.operandCount, Text.intercalate_cons_cons, Text.append_assoc, Text.whole_append_append]

/-- The text of a condition is what its leaf spells. -/
theorem fragment_chars (stem : Text) (c : Condition) (h : Plain (stem ++ c.property.display)) :
    (c.fragment (.withStem stem)).toList = (c.stub.leaf stem).chars := by
  have hrow := valueRow_of (template c.test.operation).separator (c.stub.bodies stem)
    (Stub.plain_bodies h)
  rw [fragment_template]
  simp only [Text.toList_append, hrow]
  simp [Leaf.chars, Stub.leaf, Condition.stub, chars_of h]

namespace Tree

mutual

/-- A tree has no outline where it has no condition. -/
theorem outline_eq_none : (t : Tree) → (t.outline = none ↔ t.leaves = [])
  | leaf c => by simp [outline, leaves]
  | group [] _ => by simp [outline, outlineAll, leaves, leavesAll]
  | group [t] _ => by simpa [outline, leaves, leavesAll] using outline_eq_none t
  | group (t :: u :: ts) _ => by
    rw [outline, leaves, ← outlineAll_eq_nil (t :: u :: ts)]
    · cases outlineAll (t :: u :: ts) <;> simp
    · simp

theorem outlineAll_eq_nil : (ts : List Tree) → (outlineAll ts = [] ↔ leavesAll ts = [])
  | [] => by simp [outlineAll, leavesAll]
  | t :: ts => by
    rw [outlineAll, leavesAll, List.append_eq_nil_iff, ← outline_eq_none t, ← outlineAll_eq_nil ts]
    cases outline t <;> simp

end

/-- A row of factors behind what is written already; the first join is written only there. -/
def continued : List Letter → List (Join × Factor Leaf) → List Letter
  | [], (_, f) :: rest => f.chars ++ restChars rest
  | written, fs => written ++ restChars fs

theorem continued_nil (written : List Letter) : continued written [] = written := by
  cases written <;> simp [continued, restChars]

/-- A factor goes behind a join where something is written already, and else stands alone. -/
theorem continued_cons (written : List Letter) (j : Join) (f : Factor Leaf)
    (rest : List (Join × Factor Leaf)) :
    continued written ((j, f) :: rest) =
      continued (if written = [] then f.chars
        else written ++ .char ' ' :: j.name.toList ++ .char ' ' :: f.chars) rest := by
  obtain ⟨t, hf⟩ := factor_head f
  cases written with
  | nil => simp [continued, hf]
  | cons c w => simp [continued, restChars]

mutual

/-- The text of a tree, and of a row behind what is written, by the recursion of the writer: a
member without conditions leaves what is written as it was. -/
theorem text_chars (stem : Text) : (t : Tree) →
    (∀ c ∈ t.leaves, Plain (stem ++ c.property.display)) →
    (text (.withStem stem) t).toList =
      ((outline t).map (Factor.map (Stub.leaf stem))).elim [] Factor.chars
  | leaf c, h => by
    simp [text, outline, Factor.map, Factor.chars, fragment_chars stem c (h c (by simp [leaves]))]
  | group [] _, _ => by simp [text, outline, outlineAll, joined]
  | group [t] _, h => by
    simpa [text, outline] using text_chars stem t (by simpa [leaves, leavesAll] using h)
  | group (t :: u :: ts) _, h => by
    have hrow := joined_chars stem (t :: u :: ts) "" (by simpa only [leaves] using h)
    rw [text, outline]
    · cases he : outlineAll (t :: u :: ts) with
      | nil =>
        have hempty : joined (.withStem stem) "" (t :: u :: ts) = "" := by
          rw [← Text.toList_inj, hrow, he]
          rfl
        simp [hempty]
      | cons f rest =>
        obtain ⟨cs, hf⟩ := factor_head (f.2.map (Stub.leaf stem))
        rw [he] at hrow
        simp only [mapRest, continued, Text.toList_empty] at hrow
        -- A factor spells something, so the writer puts the row in parentheses.
        have hfull : joined (.withStem stem) "" (t :: u :: ts) ≠ "" := by
          intro hempty
          rw [hempty, hf] at hrow
          simp at hrow
        simp [hfull, hrow, Factor.map, Factor.chars]
    · simp
    · simp

/-- The rest of a row goes behind what is written. -/
theorem joined_chars (stem : Text) : (ts : List Tree) → (written : Text) →
    (∀ c ∈ leavesAll ts, Plain (stem ++ c.property.display)) →
    (joined (.withStem stem) written ts).toList =
      continued written.toList (mapRest (Stub.leaf stem) (outlineAll ts))
  | [], written, _ => by simp [joined, outlineAll, mapRest, continued_nil]
  | t :: ts, written, h => by
    simp only [leavesAll, List.mem_append] at h
    have ht := text_chars stem t fun c hc => h c (.inl hc)
    rw [joined, joined_chars stem ts _ fun c hc => h c (.inr hc), outlineAll]
    cases he : outline t with
    | none =>
      have hempty : text (.withStem stem) t = "" := by
        rw [← Text.toList_inj, ht, he]
        rfl
      simp [hempty]
    | some f =>
      obtain ⟨cs, hf⟩ := factor_head (f.map (Stub.leaf stem))
      rw [he] at ht
      simp only [Option.map_some, Option.elim_some] at ht
      have hfull : text (.withStem stem) t ≠ "" := by
        intro hempty
        rw [hempty, hf] at ht
        simp at ht
      rw [mapRest, continued_cons, if_neg hfull]
      by_cases hw : written = ""
      · simp [hw, ht]
      · simp [hw, ht, Text.toList_eq_nil_iff]

end

theorem phrase_eq_none (ts : List Tree) : phrase ts = none ↔ leavesAll ts = [] := by
  rw [← outlineAll_eq_nil, phrase]
  cases outlineAll ts <;> simp

/-- The phrase of an expression, with the tokens that stand in the text. -/
def written (stem : Text) (ts : List Tree) : Option (Phrase Leaf) :=
  (phrase ts).map (Phrase.map (Stub.leaf stem))

/-- The text of a forest is what its phrase spells. -/
theorem expression_chars (stem : Text) (ts : List Tree)
    (h : ∀ c ∈ leavesAll ts, Plain (stem ++ c.property.display)) :
    (expression (.withStem stem) ts).toList = (written stem ts).elim [] Phrase.chars := by
  rw [expression, joined_chars stem ts "" h, written, phrase]
  cases outlineAll ts with
  | nil => rfl
  | cons f rest => simp [mapRest, continued, Phrase.map, Phrase.chars]

mutual

/-- An outline shows conditions of the tree only. -/
theorem stub_of_outline : (t : Tree) → (f : Factor Stub) → outline t = some f →
    ∀ s ∈ f.leaves, ∃ c ∈ t.leaves, s = c.stub
  | leaf c, f, h, s, hs => by
    simp only [outline, Option.some.injEq] at h
    subst h
    exact ⟨c, by simp [leaves], by simpa [Factor.leaves] using hs⟩
  | group [] _, f, h, _, _ => by simp [outline, outlineAll] at h
  | group [t] _, f, h, s, hs => by
    obtain ⟨c, hc, he⟩ := stub_of_outline t f (by simpa [outline] using h) s hs
    exact ⟨c, by simpa [leaves, leavesAll] using hc, he⟩
  | group (t :: u :: ts) _, f, h, s, hs => by
    have hall := stub_of_outlineAll (t :: u :: ts)
    rw [outline] at h
    · cases he : outlineAll (t :: u :: ts) with
      | nil => simp [he] at h
      | cons g rest =>
        simp only [he, Option.some.injEq] at h
        subst h
        rw [he] at hall
        simpa only [leaves] using hall s (by simpa [restLeaves, Factor.leaves] using hs)
    · simp

theorem stub_of_outlineAll : (ts : List Tree) →
    ∀ s ∈ restLeaves (outlineAll ts), ∃ c ∈ leavesAll ts, s = c.stub
  | [], _, hs => by simp [outlineAll, restLeaves] at hs
  | t :: ts, s, hs => by
    rw [outlineAll] at hs
    cases he : outline t with
    | none =>
      obtain ⟨c, hc, h⟩ := stub_of_outlineAll ts s (by simpa [he] using hs)
      exact ⟨c, by simp [leavesAll, hc], h⟩
    | some f =>
      simp only [he, restLeaves, List.mem_append] at hs
      rcases hs with hs | hs
      · obtain ⟨c, hc, h⟩ := stub_of_outline t f he s hs
        exact ⟨c, by simp [leavesAll, hc], h⟩
      · obtain ⟨c, hc, h⟩ := stub_of_outlineAll ts s hs
        exact ⟨c, by simp [leavesAll, hc], h⟩

end

/-- The tokens of an expression show what they were made of. -/
theorem phrase_of_written (stem : Text) (ts : List Tree)
    (h : ∀ c ∈ leavesAll ts, Plain (stem ++ c.property.display)) :
    (written stem ts).map (Phrase.map (Leaf.stub stem)) = phrase ts := by
  have hall := stub_of_outlineAll ts
  rw [written, phrase]
  cases he : outlineAll ts with
  | nil => rfl
  | cons f rest =>
    rw [he] at hall
    have hp := Phrase.map_map (Stub.leaf stem) (Leaf.stub stem) ⟨f.2, rest⟩ (by
      intro s hs
      obtain ⟨c, hc, rfl⟩ := hall s hs
      exact stub_leaf (h c hc))
    simp [hp]

theorem written_eq_none (stem : Text) (ts : List Tree) :
    written stem ts = none ↔ phrase ts = none := by
  rw [written, Option.map_eq_none_iff]

/-- Are all properties texts that are plain? -/
def PlainNames (ts : List Tree) : Prop :=
  ∀ c ∈ leavesAll ts, ∃ name, c.property = .text name ∧ Plain name

theorem PlainNames.stem {ts : List Tree} (h : PlainNames ts) {stem : Text} (hs : Plain stem) :
    ∀ c ∈ leavesAll ts, Plain (stem ++ c.property.display) := by
  intro c hc
  obtain ⟨name, he, hn⟩ := h c hc
  rw [he]
  exact plain_append hs hn

theorem PlainNames.writable {ts : List Tree} (h : PlainNames ts) : writable ts = true := by
  simp only [Tree.writable, propertiesAll, List.all_map, List.all_eq_true]
  intro c hc
  obtain ⟨name, he, -⟩ := h c hc
  simp [he, Value.hasDisplay]

theorem forest_expression {ts : List Tree} (h : PlainNames ts) (e : Encoder) :
    (⟨ts, false⟩ : Forest).expression e = .ok (expression e ts) := by
  simp [Forest.expression, Forest.whole, write, h.writable]

/-- A phrase always spells something. -/
theorem elim_chars_eq_nil (o : Option (Phrase Leaf)) : o.elim [] Phrase.chars = [] ↔ o = none := by
  cases o with
  | none => simp
  | some p =>
    obtain ⟨cs, hp⟩ := factor_head p.first
    simp [Phrase.chars, hp]

theorem elim_chars_unique {o o' : Option (Phrase Leaf)}
    (h : o.elim [] Phrase.chars = o'.elim [] Phrase.chars) : o = o' := by
  cases o with
  | none => exact ((elim_chars_eq_nil o').mp h.symm).symm
  | some p =>
    cases o' with
    | none => exact (elim_chars_eq_nil (some p)).mp h
    | some q => rw [phrase_unique h]

/-- The text of a forest with plain names is empty where the forest has no condition; every other
text has one parse, and that shows the outline of the forest. The outline is also all that the text
depends on. -/
theorem expression_has_one_parse (stem : Text) (hstem : Plain stem) (ts : List Tree)
    (hts : PlainNames ts) :
    ∃ text, (⟨ts, false⟩ : Forest).expression (.withStem stem) = .ok text ∧
      (text = "" ↔ leavesAll ts = []) ∧
      (text ≠ "" → ∃ p : Phrase Leaf, p.chars = text.toList ∧
        (∀ q : Phrase Leaf, q.chars = text.toList → q = p) ∧
        phrase ts = some (p.map (Leaf.stub stem))) ∧
      ∀ us, PlainNames us →
        ((⟨us, false⟩ : Forest).expression (.withStem stem) = .ok text ↔ phrase us = phrase ts) := by
  have hempty : expression (.withStem stem) ts = "" ↔ leavesAll ts = [] := by
    rw [← phrase_eq_none, ← written_eq_none stem, ← Text.toList_inj,
      expression_chars stem ts (hts.stem hstem), Text.toList_empty, elim_chars_eq_nil]
  refine ⟨_, forest_expression hts _, hempty, ?_, ?_⟩
  · intro hne
    have htext := expression_chars stem ts (hts.stem hstem)
    have hphrase := phrase_of_written stem ts (hts.stem hstem)
    cases hp : written stem ts with
    | none =>
      rw [hp] at htext
      exact absurd (Text.toList_eq_nil_iff.mp htext) hne
    | some p =>
      rw [hp] at htext hphrase
      exact ⟨p, htext.symm, fun q hq => phrase_unique (hq.trans htext), hphrase.symm⟩
  · intro us hus
    rw [forest_expression hus, Except.ok.injEq, ← Text.toList_inj,
      expression_chars stem us (hus.stem hstem), expression_chars stem ts (hts.stem hstem)]
    constructor
    · intro h
      rw [← phrase_of_written stem us (hus.stem hstem),
        ← phrase_of_written stem ts (hts.stem hstem), elim_chars_unique h]
    · intro h
      rw [written, written, h]

/-- A test, a group, a group of one member and a group of none. -/
def mixedForest : List Tree :=
  [.leaf ⟨.text "a", .compare .equal (.int 1), .or⟩,
    .group [.leaf ⟨.text "b", .oneOf [.int 1, .int 2], .and⟩,
      .leaf ⟨.text "c", .between (.int 1) (.int 9), .and⟩] .or,
    .group [.leaf ⟨.text "d", .present, .or⟩] .and, .group [] .or]

def mixedText : Text :=
  "(#n_a = :n_a) or ((#n_b in (:n_b_0,:n_b_1)) and (#n_c between :n_c_start and :n_c_end))"
    ++ " and (attribute_exists(#n_d))"

theorem expression_has_one_parse_mixed : Plain "n_" ∧ PlainNames mixedForest ∧
    (⟨mixedForest, false⟩ : Forest).expression (.withStem "n_") = .ok mixedText ∧
    ∃ p : Phrase Leaf, p.chars = mixedText.toList ∧
      (∀ q : Phrase Leaf, q.chars = mixedText.toList → q = p) ∧
      phrase mixedForest = some (p.map (Leaf.stub "n_")) := by
  have hstem : Plain "n_" := by simp [Plain, isMark]
  have hnames : PlainNames mixedForest := by
    simp [PlainNames, mixedForest, leavesAll, leaves, Plain, isMark]
  have hvalue : (⟨mixedForest, false⟩ : Forest).expression (.withStem "n_") = .ok mixedText := by
    rw [forest_expression hnames]
    exact congrArg _ (by decide +kernel)
  obtain ⟨text, htext, -, hparse, -⟩ := expression_has_one_parse "n_" hstem mixedForest hnames
  rw [hvalue, Except.ok.injEq] at htext
  subst htext
  exact ⟨hstem, hnames, hvalue, hparse (by decide)⟩

end Tree

end TableGateway
