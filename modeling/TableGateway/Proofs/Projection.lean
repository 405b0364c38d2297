import TableGateway.Projection
import TableGateway.Proofs.Entries
import TableGateway.Proofs.Outcomes

/-!
# Projections of texts

Names that are texts can always be bound: the token of a text shows the text, so one token never
stands for two of them.
-/
namespace TableGateway

theorem Encoder.withStem_name_inj {stem s t : Text}
    (h : (withStem stem).name s = (withStem stem).name t) : s = t := by
  have hlist : (("#" ++ (stem ++ s)).toList) = (("#" ++ (stem ++ t)).toList) :=
    congrArg Text.toList h
  simpa [Text.toList_inj] using hlist

namespace Placeholder

/-- Is every token of a map that of the text that it stands for? -/
def NamesTexts (e : Encoder) (target : Fields) : Prop :=
  ∀ token v, Entries.get? target token = some v → ∃ s, v = .text s ∧ token = e.name s

theorem namesTexts_nil (e : Encoder) : NamesTexts e [] := by
  intro token v h
  simp at h

theorem equals_text (s : Text) : (Value.text s).equals (.text s) = .ok true := by
  simp [Value.equals, Value.clashes, Value.same]

theorem bind_text {stem : Text} {target : Fields} (h : NamesTexts (.withStem stem) target)
    (s : Text) : ∃ target', bind target ((Encoder.withStem stem).name s) (.text s) = .ok target' ∧
      NamesTexts (.withStem stem) target' := by
  rw [bind]
  cases hs : Entries.get? target ((Encoder.withStem stem).name s) with
  | some bound =>
    obtain ⟨t, rfl, ht⟩ := h _ _ hs
    obtain rfl := Encoder.withStem_name_inj ht
    exact ⟨target, by simp [equals_text], h⟩
  | none =>
    refine ⟨_, rfl, ?_⟩
    intro token v hv
    rw [Entries.get?_append] at hv
    cases ht : Entries.get? target token with
    | some w =>
      obtain rfl : w = v := by simpa [ht] using hv
      exact h token w ht
    | none =>
      by_cases he : (Encoder.withStem stem).name s = token
      · rw [ht, Option.none_or, Entries.get?_cons, if_pos he] at hv
        exact ⟨s, (Option.some.inj hv).symm, he.symm⟩
      · rw [ht, Option.none_or, Entries.get?_cons, if_neg he, Entries.get?_nil] at hv
        exact absurd hv (by simp)

theorem bindNames_texts {stem : Text} {target : Fields} (h : NamesTexts (.withStem stem) target)
    (names : List Text) :
    ∃ target', bindNames (.withStem stem) target (names.map .text) = .ok target' := by
  induction names generalizing target with
  | nil => exact ⟨target, rfl⟩
  | cons s names ih =>
    obtain ⟨next, hs, hnext⟩ := bind_text h s
    obtain ⟨target', ht⟩ := ih hnext
    refine ⟨target', ?_⟩
    rw [List.map_cons, bindNames, bindName]
    simp only [Value.shown, Value.hasDisplay, Value.display, if_true]
    exact (congrArg (· >>= _) hs).trans ht

end Placeholder

namespace Projection

/-- The names of a projection as a value; none where everything is wanted. -/
def ofNames (names : Option (List Text)) : Value := names.elim .null fun ns => .list (ns.map .text)

theorem read_ofNames (names : Option (List Text)) :
    ∃ projection, read (ofNames names) = .ok projection := by
  cases names with
  | none => exact ⟨none, rfl⟩
  | some ns =>
    by_cases h : ns = []
    · subst h
      exact ⟨none, rfl⟩
    · obtain ⟨target, ht⟩ := Placeholder.bindNames_texts
        (Placeholder.namesTexts_nil Encoder.ofProjection) ns
      refine ⟨some ⟨text (ns.map .text), target, []⟩, ?_⟩
      have htruthy : (ofNames (some ns)).truthy = true := by simpa [ofNames, Value.truthy] using h
      rw [read, if_pos htruthy]
      simp only [ofNames, Option.elim_some, Value.elements, Value.elements?]
      have hclause : clause (ns.map .text) = .ok ⟨text (ns.map .text), target, []⟩ := by
        rw [clause, Encoder.ofProjection, ht]
        rfl
      simp [hclause]

end Projection

end TableGateway
