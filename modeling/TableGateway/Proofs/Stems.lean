import TableGateway.Proofs.Interference

/-!
# Stems in tokens

A stem goes into the tokens of an expression and nowhere else. Where no property has a '#' or ':' in
it, the text under a stem is the text without one, with the stem put behind every such mark. In the
two maps it is put behind the first character of each token; this keeps different tokens apart, so the
bindings go through, or collide, just as they do without a stem.
-/
namespace TableGateway

open Entries

/-- A text with a stem put behind each '#' and ':'. -/
def insertStem (stem s : Text) : Text :=
  .ofList (s.toList.flatMap fun l : Letter => if l = '#' ∨ l = ':' then l :: stem.toList else [l])

/-- Is there no '#' and no ':' in a text? -/
def Markless (s : Text) : Prop := Letter.char '#' ∉ s.toList ∧ Letter.char ':' ∉ s.toList

section insertStem

variable (stem : Text)

theorem insertStem_append (s t : Text) :
    insertStem stem (s ++ t) = insertStem stem s ++ insertStem stem t := by
  simp [insertStem, ← Text.toList_inj]

theorem insertStem_markless {s : Text} (h : Markless s) : insertStem stem s = s := by
  have hchars : ∀ c ∈ s.toList, (if c = '#' ∨ c = ':' then c :: stem.toList else [c]) = [c] := by
    intro c hc
    refine if_neg ?_
    rintro (rfl | rfl)
    · exact h.1 hc
    · exact h.2 hc
  rw [insertStem, List.flatMap_congr hchars]
  simp

@[simp] theorem insertStem_empty : insertStem stem "" = "" := rfl

@[simp] theorem insertStem_eq_empty {s : Text} : insertStem stem s = "" ↔ s = "" := by
  constructor
  · intro h
    have hchars : ∀ c ∈ s.toList, (if c = '#' ∨ c = ':' then c :: stem.toList else [c]) = [] := by
      simpa [insertStem, ← Text.toList_inj] using h
    rw [← Text.toList_eq_nil_iff, List.eq_nil_iff_forall_not_mem]
    intro c hc
    have hnil := hchars c hc
    split at hnil <;> cases hnil
  · rintro rfl
    rfl

/-- Behind a mark that begins a token the stem goes before its body. -/
theorem insertStem_token {mark s : Text} (hm : mark = "#" ∨ mark = ":") (h : Markless s) :
    insertStem stem (mark ++ s) = mark ++ (stem ++ s) := by
  have hmark : insertStem stem mark = mark ++ stem := by
    rw [← Text.toList_inj]
    rcases hm with rfl | rfl <;> simp [insertStem]
  rw [insertStem_append, insertStem_markless stem h, hmark, Text.append_assoc]

theorem insertStem_intercalate {separator : Text} (h : Markless separator) (parts : List Text) :
    insertStem stem (separator.intercalate parts) =
      separator.intercalate (parts.map (insertStem stem)) := by
  induction parts with
  | nil => rfl
  | cons s parts ih =>
    cases parts with
    | nil => simp
    | cons t parts =>
      rw [Text.intercalate_cons_cons, insertStem_append, insertStem_append,
        insertStem_markless stem h, ih]
      simp only [List.map_cons, Text.intercalate_cons_cons]

end insertStem

theorem Markless.append {s t : Text} (hs : Markless s) (ht : Markless t) : Markless (s ++ t) := by
  simp [Markless, Text.toList_append, hs.1, hs.2, ht.1, ht.2]

theorem markless_of_plain {s : Text} (h : Grammar.Plain s) : Markless s :=
  ⟨Grammar.notMem_of_plain rfl h, Grammar.notMem_of_plain rfl h⟩

namespace Condition

open Grammar

theorem bodies_withStem (stem : Text) (c : Condition) :
    c.bodies (.withStem stem) = (c.bodies .plain).map (stem ++ ·) := by
  obtain ⟨property, test, join⟩ := c
  cases test <;>
    simp [bodies, Encoder.token, Encoder.withStem, Encoder.plain, Text.append_assoc]

theorem markless_bodies {c : Condition} (h : Markless c.property.display) :
    ∀ b ∈ c.bodies .plain, Markless b := by
  have hunderscore : Markless "_" := by simp [Markless]
  have hbody : Markless (Encoder.plain.token c.property.display) := by
    simpa [Encoder.token, Encoder.plain, Encoder.withStem] using h
  obtain ⟨property, test, join⟩ := c
  cases test with
  | compare => simpa [bodies] using hbody
  | present | absent => simp [bodies]
  | oneOf vs | noneOf vs =>
    intro b hb
    obtain ⟨i, -, rfl⟩ := List.mem_map.mp hb
    exact (hbody.append hunderscore).append (markless_of_plain (plain_toString i))
  | between =>
    have hstart : Markless "_start" := by simp [Markless]
    have hend : Markless "_end" := by simp [Markless]
    simpa [bodies] using ⟨hbody.append hstart, hbody.append hend⟩

/-- The text of a condition has marks only where its tokens begin. -/
theorem fragment_withStem (stem : Text) {c : Condition} (h : Markless c.property.display) :
    c.fragment (.withStem stem) = insertStem stem (c.fragment .plain) := by
  have hopening : Markless (template c.test.operation).opening :=
    ⟨opening_notMem _ (.inl rfl), opening_notMem _ (.inr rfl)⟩
  have hmiddle : Markless (template c.test.operation).middle :=
    ⟨middle_notMem _ (.inl rfl), middle_notMem _ (.inr rfl)⟩
  have hseparator : Markless (template c.test.operation).separator :=
    ⟨separator_notMem _ (.inl rfl), separator_notMem _ (.inr rfl)⟩
  have hclosing : Markless (template c.test.operation).closing :=
    ⟨closing_notMem _ (.inl rfl), closing_notMem _ (.inr rfl)⟩
  have hname : Encoder.plain.token c.property.display = c.property.display := by
    simp [Encoder.token, Encoder.plain, Encoder.withStem]
  have hvalues : ((c.bodies .plain).map ((":" : Text) ++ ·)).map (insertStem stem) =
      (c.bodies (.withStem stem)).map ((":" : Text) ++ ·) := by
    rw [bodies_withStem, List.map_map, List.map_map]
    exact List.map_congr_left fun b hb => insertStem_token stem (.inr rfl) (markless_bodies h b hb)
  rw [fragment_eq, fragment_eq]
  simp only [insertStem_append stem, insertStem_markless stem hopening,
    insertStem_markless stem hmiddle, insertStem_markless stem hclosing,
    insertStem_intercalate stem hseparator, hvalues]
  rw [hname, ← insertStem_append, insertStem_token stem (.inl rfl) h]
  rfl

end Condition

namespace Tree

/-- Is there no '#' and no ':' in the properties of the conditions? -/
def MarklessNames (cs : List Condition) : Prop := ∀ c ∈ cs, Markless c.property.display

theorem insertStem_parenthesized (stem s : Text) :
    insertStem stem ("(" ++ s ++ ")") = "(" ++ insertStem stem s ++ ")" := by
  have hopen : Markless "(" := by simp [Markless]
  have hclose : Markless ")" := by simp [Markless]
  rw [insertStem_append, insertStem_append, insertStem_markless stem hopen,
    insertStem_markless stem hclose]

theorem insertStem_join (stem s : Text) (j : Join) (t : Text) :
    insertStem stem (s ++ " " ++ j.name ++ " " ++ t) =
      insertStem stem s ++ " " ++ j.name ++ " " ++ insertStem stem t := by
  have hblank : Markless " " := by simp [Markless]
  have hjoin : Markless j.name := by cases j <;> simp [Markless, Join.name]
  simp only [insertStem_append, insertStem_markless stem hblank, insertStem_markless stem hjoin]

mutual

/-- By the recursion of the writer: what is written without a stem is not empty where it is not empty
under one, so both runs write the same members, parentheses and joins. -/
theorem text_withStem (stem : Text) : (t : Tree) → MarklessNames t.leaves →
    text (.withStem stem) t = insertStem stem (text .plain t)
  | leaf c, h => by
    rw [text, text, insertStem_parenthesized, c.fragment_withStem stem (h c (by simp [leaves]))]
  | group [] _, _ => by simp [text, joined]
  | group [t] _, h => by
    simpa [text] using text_withStem stem t (by simpa [leaves, leavesAll] using h)
  | group (t :: u :: ts) _, h => by
    have hrow := joined_withStem stem (t :: u :: ts) "" (by simpa only [leaves] using h)
    rw [insertStem_empty] at hrow
    rw [text, text, hrow]
    · simp only [insertStem_eq_empty]
      split
      · rfl
      · exact (insertStem_parenthesized stem _).symm
    · simp
    · simp

theorem joined_withStem (stem : Text) : (ts : List Tree) → (written : Text) →
    MarklessNames (leavesAll ts) →
    joined (.withStem stem) (insertStem stem written) ts = insertStem stem (joined .plain written ts)
  | [], written, _ => by rw [joined, joined]
  | t :: ts, written, h => by
    rw [leavesAll] at h
    have ht := text_withStem stem t fun c hc => h c (List.mem_append_left _ hc)
    rw [joined, joined, ht,
      ← joined_withStem stem ts _ fun c hc => h c (List.mem_append_right _ hc)]
    congr 1
    simp only [insertStem_eq_empty]
    split
    · rfl
    · split
      · rfl
      · exact (insertStem_join stem written t.join _).symm

end

theorem expression_withStem (stem : Text) {ts : List Tree} (h : MarklessNames (leavesAll ts)) :
    expression (.withStem stem) ts = insertStem stem (expression .plain ts) :=
  joined_withStem stem ts "" h

end Tree

/-- A map under other keys. -/
def Entries.mapKeys {α : Type} (r : Text → Text) (es : Entries α) : Entries α :=
  es.map fun e => (r e.1, e.2)

theorem Entries.mapKeys_cons {α : Type} (r : Text → Text) (key : Text) (v : α) (es : Entries α) :
    mapKeys r ((key, v) :: es) = (r key, v) :: mapKeys r es := rfl

/-- A fault that names another token where it names one. -/
def Fault.renamed (r : Text → Text) : Fault → Fault
  | .refused (.collision token) => .refused (.collision (r token))
  | fault => fault

section Renaming

variable {r : Text → Text} (hr : Function.Injective r)
include hr

theorem get?_mapKeys {α : Type} (es : Entries α) (key : Text) :
    get? (mapKeys r es) (r key) = get? es key := by
  induction es with
  | nil => rfl
  | cons e es ih =>
    obtain ⟨k, v⟩ := e
    rw [mapKeys_cons, get?_cons, get?_cons, ih]
    simp only [hr.eq_iff]

namespace Placeholder

theorem bind_renamed (target : Fields) (token : Text) (content : Value) :
    bind (mapKeys r target) (r token) content =
      (mapKeys r <$> bind target token content).mapError (Fault.renamed r) := by
  rw [bind, bind, get?_mapKeys hr]
  cases get? target token with
  | none => simp [mapKeys, Except.mapError]
  | some bound =>
    simp only [Value.equals]
    split
    · rfl
    · cases Value.same bound content <;> rfl

/-- Different tokens under other names are different tokens, so their bindings take the same course. -/
theorem bindAll_renamed (target bs : Fields) :
    bindAll (mapKeys r target) (mapKeys r bs) =
      (mapKeys r <$> bindAll target bs).mapError (Fault.renamed r) := by
  induction bs generalizing target with
  | nil => rfl
  | cons b bs ih =>
    obtain ⟨token, content⟩ := b
    rw [mapKeys_cons, bindAll, bindAll, bind_renamed hr]
    cases bind target token content with
    | ok next => exact ih next
    | error fault => rfl

end Placeholder

end Renaming

/-- A token with a stem put behind its first character. -/
def stemmed (stem token : Text) : Text :=
  match token.toList with
  | [] => ""
  | c :: cs => Text.ofList (c :: (stem.toList ++ cs))

theorem stemmed_token (stem : Text) {mark : Text} (hm : mark = "#" ∨ mark = ":") (body : Text) :
    stemmed stem (mark ++ body) = mark ++ (stem ++ body) := by
  rw [← Text.toList_inj]
  rcases hm with rfl | rfl <;> simp [stemmed, Text.toList_append]

theorem stemmed_injective (stem : Text) : Function.Injective (stemmed stem) := by
  intro s t h
  rw [← Text.toList_inj]
  have hchars : (stemmed stem s).toList = (stemmed stem t).toList := congrArg Text.toList h
  rw [stemmed, stemmed] at hchars
  cases hs : s.toList with
  | nil =>
    cases ht : t.toList with
    | nil => rfl
    | cons d ds => simp [hs, ht] at hchars
  | cons c cs =>
    cases ht : t.toList with
    | nil => simp [hs, ht] at hchars
    | cons d ds => simpa [hs, ht] using hchars

namespace Tree

theorem nameBindings_withStem (stem : Text) (ts : List Tree) :
    nameBindings (.withStem stem) ts = mapKeys (stemmed stem) (nameBindings .plain ts) := by
  rw [nameBindings, nameBindings, mapKeys, List.map_map]
  refine List.map_congr_left fun c hc => ?_
  simp [Condition.nameBinding, Encoder.plain, stemmed_token stem (.inl rfl)]

theorem valueBindings_withStem (stem : Text) (ts : List Tree) :
    valueBindings (.withStem stem) ts = mapKeys (stemmed stem) (valueBindings .plain ts) := by
  rw [valueBindings, valueBindings, mapKeys, List.map_flatMap]
  refine List.flatMap_congr fun c hc => ?_
  rw [Condition.valueBindings_eq, Condition.valueBindings_eq, List.map_map]
  refine List.map_congr_left fun p hp => ?_
  simp [Encoder.plain, Text.append_assoc, stemmed_token stem (.inr rfl)]

end Tree

/-- A clause with a stem in the tokens of its expression and of its maps. -/
def Clause.stemmed (stem : Text) (c : Clause) : Clause where
  expression := insertStem stem c.expression
  names := mapKeys (TableGateway.stemmed stem) c.names
  values := mapKeys (TableGateway.stemmed stem) c.values

namespace Forest

open TableGateway.Tree

/-- A forest that cannot be written has one fault under all stems, and that is no collision. -/
theorem compile_unwritten {f : Forest} (h : ¬(f.broken = false ∧ writable f.trees)) :
    ∃ fault, (∀ r, Fault.renamed r fault = fault) ∧ ∀ e, f.expression e = .error fault := by
  by_cases hnames : writable f.trees
  · have hbroken : f.broken = true := by simpa [hnames] using h
    refine ⟨.noSuchPart, fun r => rfl, fun e => ?_⟩
    simp [expression, write, whole, hnames, hbroken]
  · refine ⟨.wrongType, fun r => rfl, fun e => ?_⟩
    simp [expression, write, whole, hnames]

theorem expression_withStem (stem : Text) {f : Forest} (h : MarklessNames (leavesAll f.trees)) :
    f.expression (.withStem stem) = insertStem stem <$> f.expression .plain := by
  by_cases hwritten : f.broken = false ∧ writable f.trees
  · simp [expression, write, whole, hwritten.1, hwritten.2, Tree.expression_withStem stem h]
  · obtain ⟨fault, -, hfault⟩ := compile_unwritten hwritten
    rw [hfault, hfault]
    rfl

/-- Under a stem a forest compiles to what it compiles to without one, but for the tokens. -/
theorem compile_withStem (stem : Text) {f : Forest} (h : MarklessNames (leavesAll f.trees)) :
    f.compile (.withStem stem) =
      (Clause.stemmed stem <$> f.compile .plain).mapError (Fault.renamed (stemmed stem)) := by
  by_cases hwritten : f.broken = false ∧ writable f.trees
  · rw [compile_eq _ hwritten.1 hwritten.2, compile_eq _ hwritten.1 hwritten.2,
      nameBindings_withStem, valueBindings_withStem, Tree.expression_withStem stem h]
    have hbind (bs : Fields) : Placeholder.bindAll [] (mapKeys (stemmed stem) bs) =
        (mapKeys (stemmed stem) <$> Placeholder.bindAll [] bs).mapError (Fault.renamed (stemmed stem)) :=
      Placeholder.bindAll_renamed (stemmed_injective stem) [] bs
    rw [hbind, hbind]
    cases Placeholder.bindAll [] (nameBindings .plain f.trees) with
    | error fault => rfl
    | ok names => cases Placeholder.bindAll [] (valueBindings .plain f.trees) <;> rfl
  · obtain ⟨fault, hrenamed, hfault⟩ := compile_unwritten hwritten
    rw [compile, compile, hfault, hfault]
    simp [Except.mapError, hrenamed]

/-- A stem goes into the tokens and changes nothing else: neither the rest of the expression, nor
whether and why a forest is refused, nor what tokens stand for, nor their order. -/
theorem stem_changes_tokens_only (stem : Text) (f : Forest)
    (h : MarklessNames (leavesAll f.trees)) :
    f.expression (.withStem stem) = insertStem stem <$> f.expression .plain ∧
      ((∃ clause, f.compile (.withStem stem) = .ok clause) ↔ ∃ clause, f.compile .plain = .ok clause) ∧
      (∀ clause, f.compile .plain = .ok clause → f.compile (.withStem stem) = .ok
        ⟨insertStem stem clause.expression, mapKeys (stemmed stem) clause.names,
          mapKeys (stemmed stem) clause.values⟩) ∧
      ∀ fault, f.compile .plain = .error fault →
        f.compile (.withStem stem) = .error (fault.renamed (stemmed stem)) := by
  rw [compile_withStem stem h]
  refine ⟨expression_withStem stem h, ?_, fun clause hclause => ?_, fun fault hfault => ?_⟩
  · cases f.compile .plain <;> simp [Except.mapError]
  · rw [hclause]
    rfl
  · rw [hfault]
    rfl

/-- Bounds of a property and, in a group, a property that is called like the token of the second. -/
def boundNames : Forest where
  trees :=
    [.leaf ⟨.text "p", .between (.int 1) (.int 2), .and⟩,
      .group [.leaf ⟨.text "p_end", .compare .beginsWith (.int 2), .and⟩,
        .leaf ⟨.text "q", .noneOf [.int 3, .int 4], .or⟩] .or]
  broken := false

theorem stem_changes_tokens_only_marked :
    MarklessNames (leavesAll boundNames.trees) ∧
      boundNames.expression (.withStem "#a:") = insertStem "#a:" <$> boundNames.expression .plain ∧
      ∃ clause, boundNames.compile .plain = .ok clause ∧ boundNames.compile (.withStem "#a:") = .ok
        ⟨insertStem "#a:" clause.expression, mapKeys (stemmed "#a:") clause.names,
          mapKeys (stemmed "#a:") clause.values⟩ := by
  have hmarkless : MarklessNames (leavesAll boundNames.trees) := by
    rintro c (_ | ⟨_, _ | ⟨_, _ | ⟨_, ⟨⟩⟩⟩⟩) <;> simp [Markless, Value.display]
  obtain ⟨hexpression, -, hclause, -⟩ := stem_changes_tokens_only "#a:" boundNames hmarkless
  obtain ⟨clause, hcompiled⟩ :=
    Result.exists_of_isOk (x := boundNames.compile .plain) (by decide +kernel)
  exact ⟨hmarkless, hexpression, clause, hcompiled, hclause clause hcompiled⟩

end Forest

end TableGateway
