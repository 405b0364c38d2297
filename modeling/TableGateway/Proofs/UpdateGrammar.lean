import TableGateway.Proofs.Grammar

/-!
# The grammar of update expressions

An update expression is a row of sections, each a keyword and a row of parts that is not empty: what
is set, added to, deleted from and removed. Every text is the text of one row of sections at most.
Names and values are tokens in a text and what the tokens stand for in its meaning.
-/
namespace TableGateway.Grammar

/-- What an attribute is set to. -/
inductive SetValue (ν ω : Type) where
  | given (value : ω)
  | sum (source : ν) (value : ω)
  | difference (source : ν) (value : ω)
  | ifMissing (source : ν) (value : ω)

/-- An attribute and what it is set to. -/
structure SetAction (ν ω : Type) where
  target : ν
  value : SetValue ν ω

/-- A row that is not empty. -/
structure Row (α : Type) where
  first : α
  rest : List α

/-- A clause of an update, with at least one part. -/
inductive Section (ν ω : Type) where
  | set (actions : Row (SetAction ν ω))
  | add (pairs : Row (ν × ω))
  | delete (pairs : Row (ν × ω))
  | remove (names : Row ν)

variable {α β ν ω ν' ω' : Type}

def SetValue.map (f : ν → ν') (g : ω → ω') : SetValue ν ω → SetValue ν' ω'
  | given v => given (g v)
  | sum n v => sum (f n) (g v)
  | difference n v => difference (f n) (g v)
  | ifMissing n v => ifMissing (f n) (g v)

def SetAction.map (f : ν → ν') (g : ω → ω') (a : SetAction ν ω) : SetAction ν' ω' :=
  ⟨f a.target, a.value.map f g⟩

namespace Row

def toList (r : Row α) : List α := r.first :: r.rest

def map (f : α → β) (r : Row α) : Row β := ⟨f r.first, r.rest.map f⟩

/-- The parts with a comma and a blank between each two. -/
def chars (text : α → List Letter) (r : Row α) : List Letter :=
  text r.first ++ r.rest.flatMap fun a => .char ',' :: .char ' ' :: text a

end Row

def nameToken (n : PlainName) : List Letter := .char '#' :: n.chars

/-- The characters of "if_not_exists(". -/
def missingOpening : List Letter :=
  [.char 'i', 'f', '_', 'n', 'o', 't', '_', 'e', 'x', 'i', 's', 't', 's', .char '(']

def SetValue.chars : SetValue PlainName PlainName → List Letter
  | given v => valueToken v
  | sum n v => nameToken n ++ .char ' ' :: .char '+' :: .char ' ' :: valueToken v
  | difference n v => nameToken n ++ .char ' ' :: .char '-' :: .char ' ' :: valueToken v
  | ifMissing n v => missingOpening ++ nameToken n ++ .char ',' :: .char ' ' :: valueToken v ++ [.char ')']

def SetAction.chars (a : SetAction PlainName PlainName) : List Letter :=
  nameToken a.target ++ .char ' ' :: .char '=' :: .char ' ' :: a.value.chars

def pairChars (p : PlainName × PlainName) : List Letter := nameToken p.1 ++ .char ' ' :: valueToken p.2

namespace Section

def keyword : Section ν ω → Text
  | set _ => "SET"
  | add _ => "ADD"
  | delete _ => "DELETE"
  | remove _ => "REMOVE"

def map (f : ν → ν') (g : ω → ω') : Section ν ω → Section ν' ω'
  | set r => set (r.map (SetAction.map f g))
  | add r => add (r.map (Prod.map f g))
  | delete r => delete (r.map (Prod.map f g))
  | remove r => remove (r.map f)

/-- The names that a section changes, once for each part of it. -/
def targets : Section ν ω → List ν
  | set r => r.toList.map (·.target)
  | add r | delete r => r.toList.map (·.1)
  | remove r => r.toList

def chars (s : Section PlainName PlainName) : List Letter :=
  s.keyword.toList ++ .char ' ' :: match s with
    | set r => r.chars SetAction.chars
    | add r | delete r => r.chars pairChars
    | remove r => r.chars nameToken

end Section

/-- The text of a whole update expression. -/
def sectionsChars : List (Section PlainName PlainName) → List Letter
  | [] => []
  | s :: ss => s.chars ++ ss.flatMap fun t => .char ' ' :: t.chars

/-- Does a text, followed by what may follow it, tell what it is the text of and where it ends? -/
def Unique (text : α → List Letter) (Follows : List Letter → Prop) : Prop :=
  ∀ a b r s, Follows r → Follows s → text a ++ r = text b ++ s → a = b ∧ r = s

theorem Unique.of_imp {text : α → List Letter} {P Q : List Letter → Prop} (h : Unique text P)
    (hpq : ∀ r, Q r → P r) : Unique text Q :=
  fun a b r s hr hs heq => h a b r s (hpq r hr) (hpq s hs) heq

/-- Behind a part of a section stands a comma, a space or nothing. -/
def AfterPart (r : List Letter) : Prop := ∀ c, r.head? = some c → c = ',' ∨ c = ' '

/-- Behind a section stands a space or nothing. -/
def AfterSection (r : List Letter) : Prop := ∀ c, r.head? = some c → c = ' '

theorem AfterPart.marked {r : List Letter} (h : AfterPart r) : Marked r := by
  intro c hc
  rcases h c hc with rfl | rfl <;> rfl

theorem AfterSection.part {r : List Letter} (h : AfterSection r) : AfterPart r :=
  fun c hc => .inr (h c hc)

theorem nameToken_unique : Unique nameToken Marked := by
  intro n m r s hr hs h
  exact name_unique hr hs (List.cons.inj h).2

theorem valueToken_unique : Unique valueToken Marked := by
  intro v w r s hr hs h
  exact name_unique hr hs (List.cons.inj h).2

/-- A name token, a mark and what stands behind it. -/
theorem nameToken_mark {n m : PlainName} {c d : Letter} {r s : List Letter} (hc : isMark c = true)
    (hd : isMark d = true) (h : nameToken n ++ c :: r = nameToken m ++ d :: s) :
    n = m ∧ c = d ∧ r = s := by
  obtain ⟨hn, h⟩ := nameToken_unique n m _ _ (marked_cons r hc) (marked_cons s hd) h
  exact ⟨hn, List.cons.inj h⟩

/-- What is set shows by its first character, but for a sum and a difference, which show by the sign
behind the name. -/
theorem setValue_unique : Unique SetValue.chars AfterPart := by
  intro a b r s hr hs h
  cases a with
  | given v =>
    cases b with
    | given w =>
      obtain ⟨rfl, hrs⟩ := valueToken_unique v w r s hr.marked hs.marked h
      exact ⟨rfl, hrs⟩
    | _ => simp [SetValue.chars, missingOpening, valueToken, nameToken] at h
  | sum n v =>
    cases b with
    | sum m w =>
      simp only [SetValue.chars, List.append_assoc, List.cons_append] at h
      obtain ⟨rfl, -, h⟩ := nameToken_mark rfl rfl h
      obtain ⟨rfl, hrs⟩ := valueToken_unique v w r s hr.marked hs.marked
        (List.cons.inj (List.cons.inj h).2).2
      exact ⟨rfl, hrs⟩
    | difference m w =>
      simp only [SetValue.chars, List.append_assoc, List.cons_append] at h
      obtain ⟨-, -, h⟩ := nameToken_mark rfl rfl h
      exact absurd (List.cons.inj h).1 (by decide)
    | _ => simp [SetValue.chars, missingOpening, valueToken, nameToken] at h
  | difference n v =>
    cases b with
    | difference m w =>
      simp only [SetValue.chars, List.append_assoc, List.cons_append] at h
      obtain ⟨rfl, -, h⟩ := nameToken_mark rfl rfl h
      obtain ⟨rfl, hrs⟩ := valueToken_unique v w r s hr.marked hs.marked
        (List.cons.inj (List.cons.inj h).2).2
      exact ⟨rfl, hrs⟩
    | sum m w =>
      simp only [SetValue.chars, List.append_assoc, List.cons_append] at h
      obtain ⟨-, -, h⟩ := nameToken_mark rfl rfl h
      exact absurd (List.cons.inj h).1 (by decide)
    | _ => simp [SetValue.chars, missingOpening, valueToken, nameToken] at h
  | ifMissing n v =>
    cases b with
    | ifMissing m w =>
      simp only [SetValue.chars, List.append_assoc, List.cons_append] at h
      obtain ⟨rfl, -, h⟩ := nameToken_mark rfl rfl (List.append_cancel_left h)
      obtain ⟨rfl, hend⟩ := valueToken_unique v w _ _ (marked_cons _ rfl) (marked_cons _ rfl)
        (List.cons.inj h).2
      exact ⟨rfl, (List.cons.inj hend).2⟩
    | _ => simp [SetValue.chars, missingOpening, valueToken, nameToken] at h

/-- What is set can be read in one way only, before a comma, a blank or the end. -/
theorem setAction_unique : Unique SetAction.chars AfterPart := by
  intro a b r s hr hs h
  simp only [SetAction.chars, List.append_assoc, List.cons_append] at h
  obtain ⟨htarget, -, h⟩ := nameToken_mark rfl rfl h
  obtain ⟨hvalue, hrs⟩ := setValue_unique _ _ _ _ hr hs (List.cons.inj (List.cons.inj h).2).2
  cases a
  cases b
  obtain rfl : _ = _ := htarget
  obtain rfl : _ = _ := hvalue
  exact ⟨rfl, hrs⟩

theorem pairChars_unique : Unique pairChars AfterPart := by
  intro p q r s hr hs h
  simp only [pairChars, List.append_assoc, List.cons_append] at h
  obtain ⟨hname, -, h⟩ := nameToken_mark rfl rfl h
  obtain ⟨hvalue, hrs⟩ := valueToken_unique _ _ _ _ hr.marked hs.marked h
  exact ⟨Prod.ext hname hvalue, hrs⟩

theorem afterPart_more (text : α → List Letter) (as : List α) {r : List Letter} (hr : AfterSection r) :
    AfterPart ((as.flatMap fun a => .char ',' :: .char ' ' :: text a) ++ r) := by
  cases as with
  | nil => exact hr.part
  | cons a as =>
    intro c hc
    exact .inl (Option.some.inj hc).symm

/-- A row of parts goes on as long as a comma follows. -/
theorem parts_unique {text : α → List Letter} (htext : Unique text AfterPart) (as bs : List α)
    (r s : List Letter) (hr : AfterSection r) (hs : AfterSection s)
    (h : (as.flatMap fun a => .char ',' :: .char ' ' :: text a) ++ r =
      (bs.flatMap fun b => .char ',' :: .char ' ' :: text b) ++ s) : as = bs ∧ r = s := by
  induction as generalizing bs with
  | nil =>
    cases bs with
    | nil => exact ⟨rfl, h⟩
    | cons b bs => exact absurd (hr ',' (by rw [show r = _ from h]; rfl)) (by decide)
  | cons a as ih =>
    cases bs with
    | nil => exact absurd (hs ',' (by rw [show s = _ from h.symm]; rfl)) (by decide)
    | cons b bs =>
      simp only [List.flatMap_cons, List.cons_append, List.append_assoc] at h
      obtain ⟨rfl, hrest⟩ := htext a b _ _ (afterPart_more text as hr) (afterPart_more text bs hs)
        (List.cons.inj (List.cons.inj h).2).2
      obtain ⟨rfl, hrs⟩ := ih bs hrest
      exact ⟨rfl, hrs⟩

/-- So can a row of parts, before the next clause or the end. -/
theorem row_unique {text : α → List Letter} (htext : Unique text AfterPart) :
    Unique (Row.chars text) AfterSection := by
  rintro ⟨a, as⟩ ⟨b, bs⟩ r s hr hs h
  simp only [Row.chars, List.append_assoc] at h
  obtain ⟨rfl, hrest⟩ := htext a b _ _ (afterPart_more text as hr) (afterPart_more text bs hs) h
  obtain ⟨rfl, hrs⟩ := parts_unique htext as bs r s hr hs hrest
  exact ⟨rfl, hrs⟩

/-- The keywords differ in their first characters. -/
theorem section_unique : Unique Section.chars AfterSection := by
  intro a b r s hr hs h
  cases a with
  | set as =>
    cases b with
    | set bs =>
      obtain ⟨rfl, hrs⟩ := row_unique setAction_unique as bs r s hr hs
        (by simpa [Section.chars, Section.keyword] using h)
      exact ⟨rfl, hrs⟩
    | _ => simp [Section.chars, Section.keyword] at h
  | add as =>
    cases b with
    | add bs =>
      obtain ⟨rfl, hrs⟩ := row_unique pairChars_unique as bs r s hr hs
        (by simpa [Section.chars, Section.keyword] using h)
      exact ⟨rfl, hrs⟩
    | _ => simp [Section.chars, Section.keyword] at h
  | delete as =>
    cases b with
    | delete bs =>
      obtain ⟨rfl, hrs⟩ := row_unique pairChars_unique as bs r s hr hs
        (by simpa [Section.chars, Section.keyword] using h)
      exact ⟨rfl, hrs⟩
    | _ => simp [Section.chars, Section.keyword] at h
  | remove as =>
    cases b with
    | remove bs =>
      obtain ⟨rfl, hrs⟩ := row_unique (nameToken_unique.of_imp fun _ => AfterPart.marked) as bs r s
        hr hs (by simpa [Section.chars, Section.keyword] using h)
      exact ⟨rfl, hrs⟩
    | _ => simp [Section.chars, Section.keyword] at h

theorem afterSection_more (ss : List (Section PlainName PlainName)) :
    AfterSection (ss.flatMap fun t => .char ' ' :: t.chars) := by
  cases ss with
  | nil => simp [AfterSection]
  | cons s ss =>
    intro c hc
    exact (Option.some.inj hc).symm

/-- So can clauses in a row. -/
theorem moreSections_unique (ss ts : List (Section PlainName PlainName))
    (h : (ss.flatMap fun t => .char ' ' :: t.chars) = ts.flatMap fun t => .char ' ' :: t.chars) :
    ss = ts := by
  induction ss generalizing ts with
  | nil =>
    cases ts with
    | nil => rfl
    | cons t ts => simp at h
  | cons s ss ih =>
    cases ts with
    | nil => simp at h
    | cons t ts =>
      simp only [List.flatMap_cons, List.cons_append] at h
      obtain ⟨rfl, hrest⟩ := section_unique s t _ _ (afterSection_more ss) (afterSection_more ts)
        (List.cons.inj h).2
      rw [ih ts hrest]

theorem section_ne_nil (s : Section PlainName PlainName) (r : List Letter) : s.chars ++ r ≠ [] := by
  simp [Section.chars]

/-- No text is that of two rows of sections. -/
theorem sections_unique {ss ts : List (Section PlainName PlainName)}
    (h : sectionsChars ss = sectionsChars ts) : ss = ts := by
  cases ss with
  | nil =>
    cases ts with
    | nil => rfl
    | cons t ts => exact absurd h.symm (section_ne_nil t _)
  | cons s ss =>
    cases ts with
    | nil => exact absurd h (section_ne_nil s _)
    | cons t ts =>
      obtain ⟨rfl, hrest⟩ := section_unique s t _ _ (afterSection_more ss) (afterSection_more ts) h
      rw [moreSections_unique ss ts hrest]

end TableGateway.Grammar
