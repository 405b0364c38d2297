import Mathlib.Data.List.Nodup
import TableGateway.Proofs.Entries
import TableGateway.Token

/-!
# Entries by key

Sorting the entries of a map moves them and does nothing else. Where keys are distinct, two maps with
the same look-ups are sorted to one row.
-/
namespace TableGateway.Token

open TableGateway.Entries

variable {α β : Type}

/-- An entry is put in and no other is lost. -/
theorem insertKey_perm (key : Text) (a : α) (es : Entries α) :
    (insertKey key a es).Perm ((key, a) :: es) := by
  induction es with
  | nil => exact .refl _
  | cons e es ih =>
    obtain ⟨k, b⟩ := e
    rw [insertKey]
    split
    · exact (ih.cons _).trans (.swap _ _ _)
    · exact .refl _

/-- Sorting only moves entries. -/
theorem sortKeys_perm (es : Entries α) : (sortKeys es).Perm es := by
  induction es with
  | nil => exact .refl _
  | cons e es ih => exact (insertKey_perm e.1 e.2 _).trans (ih.cons _)

theorem insertKey_mapValues (f : α → β) (key : Text) (a : α) (es : Entries α) :
    insertKey key (f a) (mapValues f es) = mapValues f (insertKey key a es) := by
  induction es with
  | nil => rfl
  | cons e es ih =>
    obtain ⟨k, b⟩ := e
    by_cases h : k < key
    · simpa [insertKey, mapValues, h] using ih
    · simp [insertKey, mapValues, h]

theorem sortKeys_mapValues (f : α → β) (es : Entries α) :
    sortKeys (mapValues f es) = mapValues f (sortKeys es) := by
  induction es with
  | nil => rfl
  | cons e es ih =>
    obtain ⟨k, a⟩ := e
    have hcons : mapValues f ((k, a) :: es) = (k, f a) :: mapValues f es := rfl
    rw [hcons, sortKeys, sortKeys, ih, insertKey_mapValues]

theorem nodup_keys_sortKeys {es : Entries α} (h : (keys es).Nodup) : (keys (sortKeys es)).Nodup :=
  ((sortKeys_perm es).map Prod.fst).nodup_iff.mpr h

theorem get?_sortKeys {es : Entries α} (h : (keys es).Nodup) (key : Text) :
    get? (sortKeys es) key = get? es key :=
  get?_of_perm h (sortKeys_perm es) key

theorem sortKeys_ne_nil {es : Entries α} (h : es ≠ []) : sortKeys es ≠ [] := by
  intro hnil
  have hperm := sortKeys_perm es
  rw [hnil] at hperm
  exact h hperm.nil_eq.symm

/-- Does one entry stand before another by its key? -/
def Before (e f : Text × α) : Prop := e.1 < f.1

/-- A row in order stays in order when a new key is put in. -/
theorem sorted_insertKey {key : Text} {es : Entries α} (hfresh : key ∉ keys es)
    (h : es.Pairwise Before) (a : α) : (insertKey key a es).Pairwise Before := by
  induction es with
  | nil => exact List.pairwise_singleton _ _
  | cons e es ih =>
    obtain ⟨k, b⟩ := e
    obtain ⟨hne, hfresh⟩ : key ≠ k ∧ key ∉ keys es := by simpa [keys] using hfresh
    obtain ⟨hfirst, hrest⟩ := List.pairwise_cons.mp h
    rw [insertKey]
    split
    · next hbefore =>
      refine List.pairwise_cons.mpr ⟨fun f hf => ?_, ih hfresh hrest⟩
      rcases List.mem_cons.mp ((insertKey_perm key a es).mem_iff.mp hf) with rfl | hf
      · exact hbefore
      · exact hfirst f hf
    · next hnot =>
      have hkey : key < k := Text.lt_of_not_lt_of_ne hnot hne
      refine List.pairwise_cons.mpr ⟨fun f hf => ?_, h⟩
      rcases List.mem_cons.mp hf with rfl | hf
      · exact hkey
      · exact Text.lt_trans hkey (hfirst f hf)

theorem sorted_sortKeys {es : Entries α} (h : (keys es).Nodup) : (sortKeys es).Pairwise Before := by
  induction es with
  | nil => exact .nil
  | cons e es ih =>
    obtain ⟨hfresh, hes⟩ := List.nodup_cons.mp h
    refine sorted_insertKey (fun hmem => hfresh ?_) (ih hes) e.2
    exact ((sortKeys_perm es).map Prod.fst).mem_iff.mp hmem

/-- Maps in which all look-ups find the same are sorted to one row. -/
theorem sortKeys_congr {es fs : Entries α} (hes : (keys es).Nodup) (hfs : (keys fs).Nodup)
    (h : ∀ key, get? es key = get? fs key) : sortKeys es = sortKeys fs := by
  have hperm : es.Perm fs := by
    refine (List.perm_ext_iff_of_nodup (List.Nodup.of_map _ hes) (List.Nodup.of_map _ hfs)).mpr
      fun ⟨key, a⟩ => ?_
    exact ⟨fun he => mem_of_get? ((h key).symm.trans (get?_of_mem hes he)),
      fun hf => mem_of_get? ((h key).trans (get?_of_mem hfs hf))⟩
  refine List.Perm.eq_of_pairwise (fun e f _ _ hef hfe => ?_) (sorted_sortKeys hes)
    (sorted_sortKeys hfs) ((sortKeys_perm es).trans (hperm.trans (sortKeys_perm fs).symm))
  exact absurd hef (Text.lt_asymm hfe)

end TableGateway.Token
