import TableGateway.Entries

/-!
# Look-ups in ordered maps

What a look-up finds after an append, and when two ways to write a map come to the same.
-/
namespace TableGateway.Entries

variable {α β : Type}

/-- A look-up goes through the first row before the second. -/
theorem get?_append (es fs : Entries α) (key : Text) :
    get? (es ++ fs) key = (get? es key).or (get? fs key) := by
  induction es with
  | nil => simp
  | cons e es ih =>
    obtain ⟨k, v⟩ := e
    by_cases h : k = key <;> simp [h, ih]

theorem get?_eq_none (es : Entries α) (key : Text) : get? es key = none ↔ key ∉ keys es := by
  induction es with
  | nil => simp [keys]
  | cons e es ih =>
    obtain ⟨k, v⟩ := e
    by_cases h : k = key
    · simp [h, keys]
    · simp [h, Ne.symm h, ih, keys]

theorem has_iff_mem_keys (es : Entries α) (key : Text) : has es key ↔ key ∈ keys es := by
  rw [has, Option.isSome_iff_ne_none, ne_eq, get?_eq_none, Decidable.not_not]

theorem mem_of_get? {es : Entries α} {key : Text} {v : α} (h : get? es key = some v) :
    (key, v) ∈ es := by
  induction es with
  | nil => simp at h
  | cons e es ih =>
    obtain ⟨k, w⟩ := e
    by_cases hk : k = key
    · simp [hk] at h
      simp [hk, h]
    · simp [hk] at h
      simp [ih h]

/-- A new key goes to the end. -/
theorem put_of_notMem {es : Entries α} {key : Text} (h : key ∉ keys es) (v : α) :
    put es key v = es ++ [(key, v)] := by
  induction es with
  | nil => rfl
  | cons e es ih =>
    obtain ⟨k, w⟩ := e
    simp only [keys, List.map_cons, List.mem_cons, not_or] at h
    rw [put, if_neg (Ne.symm h.1), ih h.2, List.cons_append]

/-- Maps without a key in common are put one behind the other. -/
theorem overlay_eq (es fs : Entries α) (h : (keys (es ++ fs)).Nodup) :
    overlay es fs = es ++ fs := by
  induction fs generalizing es with
  | nil => simp [overlay]
  | cons e fs ih =>
    have hfresh : e.1 ∉ keys es := by
      rw [keys, List.map_append, List.map_cons, List.nodup_append] at h
      intro hmem
      exact h.2.2 e.1 hmem e.1 (by simp) rfl
    rw [overlay, List.foldl_cons, put_of_notMem hfresh]
    have happend : es ++ [(e.1, e.2)] ++ fs = es ++ e :: fs := by simp
    rw [← happend] at h ⊢
    exact ih _ h

/-- Pairs with distinct keys are a map as they stand. -/
theorem ofPairs_eq {es : List (Text × α)} (h : (keys es).Nodup) : ofPairs es = es := by
  exact overlay_eq [] es h

/-- Where keys are distinct, each entry is what its key finds. -/
theorem get?_of_mem {es : Entries α} (h : (keys es).Nodup) {key : Text} {v : α}
    (hv : (key, v) ∈ es) : get? es key = some v := by
  induction es with
  | nil => simp at hv
  | cons e es ih =>
    obtain ⟨k, w⟩ := e
    obtain ⟨hk, hes⟩ := List.nodup_cons.mp h
    rcases List.mem_cons.mp hv with heq | hv
    · simp only [Prod.mk.injEq] at heq
      simp [heq]
    · have hne : k ≠ key := by
        rintro rfl
        exact hk (List.mem_map.mpr ⟨(k, v), hv, rfl⟩)
      simp [hne, ih hes hv]

/-- Where keys are distinct the order of the entries has no part in a look-up. -/
theorem get?_of_perm {es fs : Entries α} (h : (keys es).Nodup) (hp : fs.Perm es) (key : Text) :
    get? fs key = get? es key := by
  have hfs : (keys fs).Nodup := (hp.map Prod.fst).nodup_iff.mpr h
  cases hv : get? es key with
  | some v => exact get?_of_mem hfs (hp.mem_iff.mpr (mem_of_get? hv))
  | none =>
    rw [get?_eq_none] at hv ⊢
    intro hmem
    exact hv ((hp.map Prod.fst).mem_iff.mp hmem)

@[simp] theorem keys_mapValues (f : α → β) (es : Entries α) : keys (mapValues f es) = keys es := by
  simp [keys, mapValues, Function.comp_def]

theorem get?_mapValues (f : α → β) (es : Entries α) (key : Text) :
    get? (mapValues f es) key = (get? es key).map f := by
  induction es with
  | nil => rfl
  | cons e es ih =>
    obtain ⟨k, v⟩ := e
    by_cases h : k = key
    · simp [mapValues, h]
    · simpa [mapValues, h] using ih

/-- Of two values put under one key the second stays. -/
theorem put_put (es : Entries α) (key : Text) (v w : α) :
    put (put es key v) key w = put es key w := by
  induction es with
  | nil => simp [put]
  | cons e es ih =>
    obtain ⟨k, u⟩ := e
    by_cases hk : k = key
    · simp [put, hk]
    · simp [put, hk, ih]

/-- What stands in a map can be put there again. -/
theorem put_of_get? {es : Entries α} {key : Text} {v : α} (h : get? es key = some v) :
    put es key v = es := by
  induction es with
  | nil => simp at h
  | cons e es ih =>
    obtain ⟨k, w⟩ := e
    by_cases hk : k = key
    · have hw : w = v := by simpa [hk] using h
      simp [put, hk, hw]
    · have hes : get? es key = some v := by simpa [hk] using h
      simp [put, hk, ih hes]

theorem mem_put {es : Entries α} {key : Text} {v : α} {e : Text × α} (h : e ∈ put es key v) :
    e ∈ es ∨ e = (key, v) := by
  induction es with
  | nil => simpa [put] using h
  | cons f es ih =>
    obtain ⟨k, w⟩ := f
    by_cases hk : k = key
    · rw [put, if_pos hk] at h
      rcases List.mem_cons.mp h with rfl | h
      · exact .inr (by rw [hk])
      · exact .inl (List.mem_cons_of_mem _ h)
    · rw [put, if_neg hk] at h
      rcases List.mem_cons.mp h with rfl | h
      · exact .inl List.mem_cons_self
      · exact (ih h).imp_left (List.mem_cons_of_mem _)

/-- Putting keeps keys distinct. -/
theorem nodup_keys_put {es : Entries α} (h : (keys es).Nodup) (key : Text) (v : α) :
    (keys (put es key v)).Nodup := by
  induction es with
  | nil => simp [put, keys]
  | cons e es ih =>
    obtain ⟨k, w⟩ := e
    obtain ⟨hk, hes⟩ := List.nodup_cons.mp h
    by_cases heq : k = key
    · rw [put, if_pos heq]
      exact List.nodup_cons.mpr ⟨hk, hes⟩
    · rw [put, if_neg heq]
      refine List.nodup_cons.mpr ⟨fun hmem => ?_, ih hes⟩
      obtain ⟨e, he, hfst⟩ := List.mem_map.mp hmem
      rcases mem_put he with he | rfl
      · exact hk (List.mem_map.mpr ⟨e, he, hfst⟩)
      · exact heq hfst.symm

/-- No key stands twice in a map made of pairs. -/
theorem nodup_keys_ofPairs (ps : List (Text × α)) : (keys (ofPairs ps)).Nodup := by
  have hover : ∀ es : Entries α, (keys es).Nodup → (keys (overlay es ps)).Nodup := by
    induction ps with
    | nil => exact fun es hes => hes
    | cons p ps ih => exact fun es hes => ih _ (nodup_keys_put hes p.1 p.2)
  exact hover [] (by simp [keys])

/-- What is left of a row of pairs came with one of them. -/
theorem mem_of_mem_ofPairs {ps : List (Text × α)} {e : Text × α} (h : e ∈ ofPairs ps) : e ∈ ps := by
  have hover : ∀ es : Entries α, e ∈ overlay es ps → e ∈ es ∨ e ∈ ps := by
    clear h
    induction ps with
    | nil => exact fun es he => .inl he
    | cons p ps ih =>
      intro es he
      rcases ih _ he with he | he
      · exact (mem_put he).imp id fun heq => by simp [heq]
      · exact .inr (List.mem_cons_of_mem _ he)
  simpa using hover [] h

theorem get?_erase_of_ne (es : Entries α) {key other : Text} (h : key ≠ other) :
    get? (erase es other) key = get? es key := by
  induction es with
  | nil => rfl
  | cons e es ih =>
    obtain ⟨k, v⟩ := e
    by_cases hk : k = other
    · have hkey : k ≠ key := fun heq => h (heq.symm.trans hk)
      rw [erase, List.filter_cons_of_neg (by simpa using hk), get?_cons, if_neg hkey]
      exact ih
    · rw [erase, List.filter_cons_of_pos (by simpa using hk), get?_cons, get?_cons]
      split
      · rfl
      · exact ih

end TableGateway.Entries
