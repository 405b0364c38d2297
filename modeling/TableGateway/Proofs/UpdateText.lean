import TableGateway.Proofs.ExpressionText
import TableGateway.Proofs.UpdateGrammar
import TableGateway.Update.Rules

/-!
# What an update asks for, and its text

An update asks for changes in up to four sections: values set, then sums, differences and values set
where there is none; things added; things deleted; attributes removed. Its text is that of these
sections with a token in the place of every name and of every operand.
-/
namespace TableGateway

open Grammar

/-- An operand, with the property after which its token is named. -/
structure Operand where
  property : Value
  value : Value

namespace AtomicOperation

/-- What a value stands for where a set is meant: a list, a tuple, a set and a frozen set for their
members in order, and every other value, a map or a text among them, for itself alone. -/
def standsFor (v : Value) : List Value :=
  match v with
  | .list vs => vs
  | .tuple vs => vs
  | .set false vs => vs
  | .set true vs => vs
  | .map _ | .text _ | .blob _ | .record .. => [v]
  | .null | .bool _ | .number _ | .anything | .object _ => [v]

/-- The operand that an operation is meant to have: a set of what is given where it changes one. -/
def meant (create : SetMaker) (o : AtomicOperation) : Result Value :=
  match o.change with
  | .addToSet | .removeFromSet => create (standsFor o.operand)
  | .sum | .subtract | .add | .setIfNotExists => .ok o.operand

theorem elements_eq (v : Value) : elements v = standsFor v := by
  cases v with
  | set frozen vs => cases frozen <;> rfl
  | _ => rfl

theorem handedOver_eq (create : SetMaker) (o : AtomicOperation) :
    o.handedOver create = o.meant create := by
  rw [handedOver, meant, elements_eq]
  cases o.change <;> rfl

/-- The attribute that a value is taken from, if it is there: the one named apart, else the property. -/
def origin (o : AtomicOperation) : Value := if o.source.truthy then o.source else o.property

theorem reference_eq {o : AtomicOperation} (h : o.change = .setIfNotExists) :
    o.reference = o.origin := by
  rw [reference, otherSource?, origin, h]
  by_cases hs : o.source.truthy <;> simp [hs]

/-- What an operation sets, given its operand. -/
def setAction? (o : AtomicOperation) (v : Value) : Option (SetAction Value Operand) :=
  match o.change with
  | .sum => some ⟨o.property, .sum o.property ⟨o.property, v⟩⟩
  | .subtract => some ⟨o.property, .difference o.property ⟨o.property, v⟩⟩
  | .setIfNotExists => some ⟨o.property, .ifMissing o.origin ⟨o.property, v⟩⟩
  | .add | .addToSet | .removeFromSet => none

/-- What an operation adds, given its operand. -/
def addPair? (o : AtomicOperation) (v : Value) : Option (Value × Operand) :=
  match o.change with
  | .add | .addToSet => some (o.property, ⟨o.property, v⟩)
  | .sum | .subtract | .setIfNotExists | .removeFromSet => none

/-- What an operation deletes, given its operand. -/
def deletePair? (o : AtomicOperation) (v : Value) : Option (Value × Operand) :=
  match o.change with
  | .removeFromSet => some (o.property, ⟨o.property, v⟩)
  | .sum | .subtract | .add | .setIfNotExists | .addToSet => none

end AtomicOperation

/-- The section of a row; none where the row is empty. -/
def Grammar.part {α ν ω : Type} (kind : Row α → Section ν ω) : List α → List (Section ν ω)
  | [] => []
  | a :: as => [kind ⟨a, as⟩]

namespace Update

/-- The sections that values to set, operations with their operands and attributes to remove make. -/
def sections (sets : Fields) (given : List (AtomicOperation × Value)) (removed : List Value) :
    List (Section Value Operand) :=
  part .set (sets.map (fun e => ⟨.text e.1, .given ⟨.text e.1, e.2⟩⟩)
    ++ given.filterMap fun g => g.1.setAction? g.2)
  ++ part .add (given.filterMap fun g => g.1.addPair? g.2)
  ++ part .delete (given.filterMap fun g => g.1.deletePair? g.2)
  ++ part .remove removed

/-- What an update asks for. -/
def asked (create : SetMaker) (values remove atomic : Value) :
    Result (List (Section Value Operand)) := do
  let entries ← values.entriesOrNone
  let ops ← operations atomic
  let given ← ops.mapM fun o => do return (o, ← o.meant create)
  let removed ← remove.elementsOrNone
  return sections (entries.filter fun e => !e.2.isNull) given removed

end Update

section Maps

variable {α ν ω ν' ω' : Type} (f : ν → ν') (g : ω → ω')

theorem part_set (as : List (SetAction ν ω)) :
    (part .set as).map (Section.map f g) = part .set (as.map (SetAction.map f g)) := by
  cases as <;> rfl

theorem part_add (as : List (ν × ω)) :
    (part .add as).map (Section.map f g) = part .add (as.map (Prod.map f g)) := by
  cases as <;> rfl

theorem part_delete (as : List (ν × ω)) :
    (part .delete as).map (Section.map f g) = part .delete (as.map (Prod.map f g)) := by
  cases as <;> rfl

theorem part_remove (as : List ν) :
    (part (ω := ω) .remove as).map (Section.map f g) = part .remove (as.map f) := by
  cases as <;> rfl

end Maps

theorem intercalate_eq {α : Type} (separator x : List α) (xs : List (List α)) :
    separator.intercalate (x :: xs) = x ++ xs.flatMap (separator ++ ·) := by
  induction xs generalizing x with
  | nil => simp [List.intercalate]
  | cons y xs ih =>
    have hrest := ih y
    simp only [List.intercalate] at hrest ⊢
    simp [hrest]

theorem row_chars {α : Type} {text : α → List Letter} {fragments : List Text} {a : α} {as : List α}
    (h : fragments.map Text.toList = (a :: as).map text) :
    ((", " : Text).intercalate fragments).toList = Row.chars text ⟨a, as⟩ := by
  rw [Text.toList_intercalate, h, List.map_cons, intercalate_eq, List.flatMap_map]
  simp [Row.chars]

theorem sections_chars {parts : List Text} {ss : List (Section PlainName PlainName)}
    (h : parts.map Text.toList = ss.map Section.chars) :
    ((" " : Text).intercalate parts).toList = sectionsChars ss := by
  rw [Text.toList_intercalate, h]
  cases ss with
  | nil => rfl
  | cons s ss =>
    rw [List.map_cons, intercalate_eq, List.flatMap_map]
    simp [sectionsChars]

/-- A clause of the text is that of a section whose parts have the texts of the fragments. -/
theorem part_chars {α : Type} {text : α → List Letter} {kind : Row α → Section PlainName PlainName}
    {keyword : Text} (hkind : ∀ r, (kind r).chars = keyword.toList ++ .char ' ' :: r.chars text)
    {fragments : List Text} {as : List α} (h : fragments.map Text.toList = as.map text) :
    (UpdateClauses.part keyword fragments).map Text.toList = (part kind as).map Section.chars := by
  cases as with
  | nil =>
    obtain rfl : fragments = [] := by simpa using h
    rfl
  | cons a as =>
    have hne : fragments.isEmpty = false := by
      cases fragments with
      | nil => simp at h
      | cons f fs => rfl
    rw [UpdateClauses.part, hne, part]
    simp [hkind, row_chars h]

/-- The tokens of an update: of a name, and of an operand. -/
def nameBody (n : Value) : PlainName := .of n.display

def operandBody (o : Operand) : PlainName := .of o.property.display

/-- Is a value a text that is plain? -/
def PlainText (v : Value) : Prop := ∃ s, v = .text s ∧ Plain s

theorem PlainText.text {v : Value} (h : PlainText v) : ∃ s, v = .text s := by
  obtain ⟨s, hv, -⟩ := h
  exact ⟨s, hv⟩

theorem nameToken_of {n : Value} (h : PlainText n) :
    (AtomicOperation.name n).toList = nameToken (nameBody n) := by
  obtain ⟨s, rfl, hs⟩ := h
  have hbody : (nameBody (.text s)).chars = s.toList := chars_of hs
  simp [AtomicOperation.name, Encoder.plain, nameToken, hbody, Value.display]

theorem valueToken_of {n : Value} (h : PlainText n) (v : Value) :
    (AtomicOperation.value n).toList = valueToken (operandBody ⟨n, v⟩) := by
  obtain ⟨s, rfl, hs⟩ := h
  have hbody : (operandBody ⟨.text s, v⟩).chars = s.toList := chars_of hs
  simp [AtomicOperation.value, Encoder.plain, valueToken, hbody, Value.display]

namespace AtomicOperation

variable {o : AtomicOperation}

/-- Are the names that an operation uses texts that are plain? -/
def PlainNames (o : AtomicOperation) : Prop := ∀ n ∈ o.names, PlainText n

theorem PlainNames.property (h : o.PlainNames) : PlainText o.property := h _ (by simp [names])

theorem PlainNames.reference (h : o.PlainNames) : PlainText o.reference := by
  rw [AtomicOperation.reference]
  cases hs : o.otherSource? with
  | none => exact h.property
  | some n => exact h n (by simp [names, hs])

theorem setFragment_chars (h : o.PlainNames) (v : Value) :
    o.setFragment?.map Text.toList =
      (o.setAction? v).map fun a => (a.map nameBody operandBody).chars := by
  have hname := nameToken_of h.property
  have hvalue := valueToken_of h.property v
  have hsource := nameToken_of h.reference
  rw [setFragment?, setAction?]
  cases hc : o.change with
  | setIfNotExists =>
    rw [reference_eq hc] at hsource
    simp [reference_eq hc, hname, hvalue, hsource, SetAction.chars, SetAction.map, SetValue.map,
      SetValue.chars, missingOpening]
  | _ => simp [hname, hvalue, SetAction.chars, SetAction.map, SetValue.map, SetValue.chars]

theorem addFragment_chars (h : o.PlainNames) (v : Value) :
    o.addFragment?.map Text.toList =
      (o.addPair? v).map fun p => pairChars (p.map nameBody operandBody) := by
  have hname := nameToken_of h.property
  have hvalue := valueToken_of h.property v
  rw [addFragment?, addPair?]
  cases o.change <;> simp [hname, hvalue, pairChars]

theorem deleteFragment_chars (h : o.PlainNames) (v : Value) :
    o.deleteFragment?.map Text.toList =
      (o.deletePair? v).map fun p => pairChars (p.map nameBody operandBody) := by
  have hname := nameToken_of h.property
  have hvalue := valueToken_of h.property v
  rw [deleteFragment?, deletePair?]
  cases o.change <;> simp [hname, hvalue, pairChars]

end AtomicOperation

/-- The texts of the fragments that operations have are those of the parts that they make. -/
theorem fragments_chars {α β : Type} {fragment? : AtomicOperation → Option Text}
    {part? : AtomicOperation → Value → Option α} {f : α → β} {text : β → List Letter}
    (given : List (AtomicOperation × Value))
    (h : ∀ g ∈ given, (fragment? g.1).map Text.toList = (part? g.1 g.2).map fun a => text (f a)) :
    ((given.map Prod.fst).filterMap fragment?).map Text.toList =
      ((given.filterMap fun g => part? g.1 g.2).map f).map text := by
  induction given with
  | nil => rfl
  | cons g given ih =>
    have hg := h g (by simp)
    have hrest := ih fun g' hg' => h g' (by simp [hg'])
    rw [List.map_cons, List.filterMap_cons, List.filterMap_cons]
    cases hf : fragment? g.1 <;> cases hp : part? g.1 g.2 <;> simp_all

theorem clauses_chars {sets : Fields} {given : List (AtomicOperation × Value)}
    {removed : List Value} (hsets : ∀ e ∈ sets, Plain e.1)
    (hgiven : ∀ g ∈ given, g.1.PlainNames) (hremoved : ∀ n ∈ removed, PlainText n) :
    (Update.clauses sets (given.map Prod.fst) removed).text.toList =
      sectionsChars ((Update.sections sets given removed).map
        (Section.map nameBody operandBody)) := by
  rw [UpdateClauses.text]
  refine sections_chars ?_
  simp only [Update.sections, List.map_append, part_set, part_add, part_delete, part_remove]
  refine congrArg₂ _ (congrArg₂ _ (congrArg₂ _ (part_chars (fun _ => rfl) ?_)
    (part_chars (fun _ => rfl) ?_)) (part_chars (fun _ => rfl) ?_)) (part_chars (fun _ => rfl) ?_)
  · have hgivenSets := fragments_chars given fun g hg =>
      AtomicOperation.setFragment_chars (hgiven g hg) g.2
    rw [Update.clauses, List.map_append, List.map_append, hgivenSets]
    refine congrArg (· ++ _) ?_
    simp only [List.map_map]
    refine List.map_congr_left fun e he => ?_
    have hname := nameToken_of ⟨e.1, rfl, hsets e he⟩
    have hvalue := valueToken_of ⟨e.1, rfl, hsets e he⟩ e.2
    have hdisplay : (Value.text e.1).display = e.1 := rfl
    rw [AtomicOperation.name, hdisplay] at hname
    rw [AtomicOperation.value, hdisplay] at hvalue
    simp [hname, hvalue, SetAction.map, SetAction.chars, SetValue.map, SetValue.chars]
  · exact fragments_chars given fun g hg => AtomicOperation.addFragment_chars (hgiven g hg) g.2
  · exact fragments_chars given fun g hg => AtomicOperation.deleteFragment_chars (hgiven g hg) g.2
  · rw [Update.clauses, List.map_map, List.map_map]
    exact List.map_congr_left fun n hn => nameToken_of (hremoved n hn)

theorem part_keywords {α ν ω : Type} {kind : Row α → Section ν ω} {keyword : Text}
    (hkind : ∀ r, (kind r).keyword = keyword) (as : List α) :
    ((part kind as).map Section.keyword).Sublist [keyword] := by
  cases as with
  | nil => simp [part]
  | cons a as => simp [part, hkind]

theorem sections_keywords (sets : Fields) (given : List (AtomicOperation × Value))
    (removed : List Value) :
    ((Update.sections sets given removed).map Section.keyword).Sublist
      ["SET", "ADD", "DELETE", "REMOVE"] := by
  simp only [Update.sections, List.map_append]
  have hset := @part_keywords _ Value Operand .set "SET" (fun _ => rfl)
  have hadd := @part_keywords _ Value Operand .add "ADD" (fun _ => rfl)
  have hdelete := @part_keywords _ Value Operand .delete "DELETE" (fun _ => rfl)
  have hremove := @part_keywords _ Value Operand .remove "REMOVE" (fun _ => rfl)
  exact (((hset _).append (hadd _)).append (hdelete _)).append (hremove _)

theorem part_targets {α ν ω : Type} {kind : Row α → Section ν ω} {target : α → ν}
    (hkind : ∀ r, (kind r).targets = r.toList.map target) (as : List α) :
    (part kind as).flatMap Section.targets = as.map target := by
  cases as with
  | nil => rfl
  | cons a as => simp [part, hkind, Row.toList]

/-- An operation makes one part, with its property as the target. -/
theorem AtomicOperation.one_part (o : AtomicOperation) (v : Value) :
    (∃ a, o.setAction? v = some a ∧ a.target = o.property ∧ o.addPair? v = none ∧
      o.deletePair? v = none) ∨
    (∃ p, o.addPair? v = some p ∧ p.1 = o.property ∧ o.setAction? v = none ∧
      o.deletePair? v = none) ∨
    (∃ p, o.deletePair? v = some p ∧ p.1 = o.property ∧ o.setAction? v = none ∧
      o.addPair? v = none) := by
  rw [setAction?, addPair?, deletePair?]
  cases o.change <;> simp

/-- Each operation changes its property, in one of the three sections. -/
theorem targets_of_given (given : List (AtomicOperation × Value)) :
    ((given.filterMap fun g => g.1.setAction? g.2).map (·.target)
      ++ (given.filterMap fun g => g.1.addPair? g.2).map Prod.fst
      ++ (given.filterMap fun g => g.1.deletePair? g.2).map Prod.fst).Perm
      (given.map fun g => g.1.property) := by
  induction given with
  | nil => exact .nil
  | cons g given ih =>
    simp only [List.filterMap_cons, List.map_cons]
    obtain ⟨a, hset, ha, hadd, hdelete⟩ | ⟨p, hadd, hp, hset, hdelete⟩ |
      ⟨p, hdelete, hp, hset, hadd⟩ := g.1.one_part g.2
    · simp only [hset, hadd, hdelete, List.map_cons, ha, List.cons_append]
      exact .cons _ ih
    · simp only [hset, hadd, hdelete, List.map_cons, hp, List.append_assoc, List.cons_append]
      exact List.perm_middle.trans (.cons _ (by simpa using ih))
    · simp only [hset, hadd, hdelete, List.map_cons, hp]
      exact List.perm_middle.trans (.cons _ ih)

/-- Everything that is touched is the target of one part, and of nothing more. -/
theorem sections_targets (sets : Fields) (given : List (AtomicOperation × Value))
    (removed : List Value) :
    ((Update.sections sets given removed).flatMap Section.targets).Perm
      ((Entries.keys sets).map .text ++ removed ++ given.map fun g => g.1.property) := by
  have hgiven := targets_of_given given
  rw [Update.sections, List.flatMap_append, List.flatMap_append, List.flatMap_append,
    part_targets (fun _ => rfl), part_targets (fun _ => rfl), part_targets (fun _ => rfl),
    @part_targets _ Value Operand .remove id (fun r => by simp [Section.targets]), List.map_append,
    List.map_id]
  have hsets : (sets.map fun e => (⟨.text e.1, .given ⟨.text e.1, e.2⟩⟩ :
      SetAction Value Operand)).map (·.target) = (Entries.keys sets).map Value.text := by
    simp [Entries.keys, Function.comp_def]
  rw [hsets]
  simp only [List.append_assoc] at hgiven ⊢
  refine .append_left _ ?_
  rw [← List.append_assoc, ← List.append_assoc]
  exact List.perm_append_comm.trans (.append_left _ (by simpa using hgiven))

namespace Grammar

variable {α β γ ν ω ν₁ ω₁ ν₂ ω₂ : Type} (f : ν → ν₁) (g : ω → ω₁) (f' : ν₁ → ν₂) (g' : ω₁ → ω₂)

theorem SetAction.map_comp :
    SetAction.map f' g' ∘ SetAction.map f g = SetAction.map (f' ∘ f) (g' ∘ g) := by
  funext a
  obtain ⟨n, v⟩ := a
  cases v <;> rfl

theorem Row.map_map (h : α → β) (h' : β → γ) (r : Row α) : (r.map h).map h' = r.map (h' ∘ h) := by
  simp [Row.map]

theorem Section.map_map (s : Section ν ω) :
    (s.map f g).map f' g' = s.map (f' ∘ f) (g' ∘ g) := by
  cases s <;> simp only [Section.map, Row.map_map, SetAction.map_comp, Prod.map_comp_map]

end Grammar

/-- Two readings of the names and operands of an update that agree where it uses them. -/
theorem sections_congr {ν ω : Type} {f f' : Value → ν} {g g' : Operand → ω} {sets : Fields}
    {given : List (AtomicOperation × Value)} {removed : List Value}
    (hsets : ∀ e ∈ sets, f (.text e.1) = f' (.text e.1) ∧
      g ⟨.text e.1, e.2⟩ = g' ⟨.text e.1, e.2⟩)
    (hgiven : ∀ p ∈ given, f p.1.property = f' p.1.property ∧
      (p.1.change = .setIfNotExists → f p.1.origin = f' p.1.origin) ∧
      g ⟨p.1.property, p.2⟩ = g' ⟨p.1.property, p.2⟩)
    (hremoved : ∀ n ∈ removed, f n = f' n) :
    (Update.sections sets given removed).map (Section.map f g) =
      (Update.sections sets given removed).map (Section.map f' g') := by
  simp only [Update.sections, List.map_append, part_set, part_add, part_delete, part_remove]
  refine congrArg₂ _ (congrArg₂ _ (congrArg₂ _ (congrArg _ (congrArg₂ _ ?_ ?_)) (congrArg _ ?_))
    (congrArg _ ?_)) (congrArg _ ?_)
  · simp only [List.map_map]
    refine List.map_congr_left fun e he => ?_
    simp [SetAction.map, SetValue.map, hsets e he]
  · refine List.map_congr_left fun a ha => ?_
    obtain ⟨p, hp, ha⟩ := List.mem_filterMap.mp ha
    obtain ⟨hproperty, horigin, hoperand⟩ := hgiven p hp
    rw [AtomicOperation.setAction?] at ha
    split at ha
    all_goals cases ha
    · simp [SetAction.map, SetValue.map, hproperty, hoperand]
    · simp [SetAction.map, SetValue.map, hproperty, hoperand]
    · rename_i hc
      simp [SetAction.map, SetValue.map, hproperty, hoperand, horigin hc]
  · refine List.map_congr_left fun a ha => ?_
    obtain ⟨p, hp, ha⟩ := List.mem_filterMap.mp ha
    obtain ⟨hproperty, -, hoperand⟩ := hgiven p hp
    rw [AtomicOperation.addPair?] at ha
    split at ha
    all_goals cases ha
    all_goals simp [hproperty, hoperand]
  · refine List.map_congr_left fun a ha => ?_
    obtain ⟨p, hp, ha⟩ := List.mem_filterMap.mp ha
    obtain ⟨hproperty, -, hoperand⟩ := hgiven p hp
    rw [AtomicOperation.deletePair?] at ha
    split at ha
    all_goals cases ha
    simp [hproperty, hoperand]
  · exact List.map_congr_left hremoved

end TableGateway
