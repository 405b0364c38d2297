import Mathlib.Control.Monad.Basic
import Mathlib.Data.List.Forall2
import TableGateway.Fault

/-!
# Chains of results

A chain of results goes on with what was found and stops at the first fault, so a chain that comes
to its end has found something at each step.
-/
namespace TableGateway.Result

variable {ε α β γ : Type}

@[simp] theorem ok_bind (a : α) (f : α → Except ε β) : (Except.ok a >>= f) = f a := rfl

@[simp] theorem error_bind (e : ε) (f : α → Except ε β) : (Except.error e >>= f) = .error e := rfl

@[simp] theorem pure_eq (a : α) : (pure a : Except ε α) = .ok a := rfl

theorem bind_ok (x : Except ε α) : (x >>= Except.ok) = x := by
  cases x <;> rfl

/-- A chain of two steps comes to its end by way of something that the first has found. -/
theorem bind_eq_ok {x : Except ε α} {f : α → Except ε β} {b : β} :
    (x >>= f) = .ok b ↔ ∃ a, x = .ok a ∧ f a = .ok b := by
  cases x <;> simp

theorem exists_of_isOk {x : Except ε α} (h : x.isOk = true) : ∃ a, x = .ok a := by
  cases x with
  | ok a => exact ⟨a, rfl⟩
  | error e => simp [Except.isOk, Except.toBool] at h

theorem map_eq_ok {x : Except ε α} {f : α → β} {b : β} :
    (f <$> x) = .ok b ↔ ∃ a, x = .ok a ∧ f a = b := by
  cases x <;> simp

theorem map_eq_error {x : Except ε α} {f : α → β} {e : ε} : (f <$> x) = .error e ↔ x = .error e := by
  cases x <;> simp

/-- Reading a row goes wrong at its first member that cannot be read. -/
theorem mapM_eq_error {f : α → Except ε β} {xs : List α} {e : ε} :
    xs.mapM f = .error e ↔ ∃ before x after, xs = before ++ x :: after ∧
      (∀ y ∈ before, ∃ b, f y = .ok b) ∧ f x = .error e := by
  induction xs with
  | nil => simp
  | cons x xs ih =>
    rw [List.mapM_cons]
    constructor
    · intro h
      cases hx : f x with
      | error e' =>
        obtain rfl : e' = e := by simpa [hx] using h
        exact ⟨[], x, xs, rfl, by simp, hx⟩
      | ok b =>
        have hxs : xs.mapM f = .error e := by
          cases hxs : xs.mapM f with
          | ok bs => simp [hx, hxs] at h
          | error e' => simpa [hx, hxs] using h
        obtain ⟨before, y, after, rfl, hbefore, hy⟩ := ih.mp hxs
        refine ⟨x :: before, y, after, rfl, ?_, hy⟩
        intro z hz
        rcases List.mem_cons.mp hz with rfl | hz
        · exact ⟨b, hx⟩
        · exact hbefore z hz
    · rintro ⟨before, y, after, hxs, hbefore, hy⟩
      cases before with
      | nil =>
        obtain ⟨rfl, rfl⟩ := List.cons.inj hxs
        simp [hy]
      | cons z before =>
        obtain ⟨rfl, rfl⟩ := List.cons.inj hxs
        obtain ⟨b, hb⟩ := hbefore x (by simp)
        have hrest := ih.mpr ⟨before, y, after, rfl, fun w hw => hbefore w (by simp [hw]), hy⟩
        rw [hb, ok_bind, hrest]
        rfl

/-- Reading a row is reading its members, place by place. -/
theorem forall₂_of_mapM {f : α → Except ε β} {xs : List α} {ys : List β}
    (h : xs.mapM f = .ok ys) : List.Forall₂ (fun x y => f x = .ok y) xs ys := by
  induction xs generalizing ys with
  | nil =>
    obtain rfl : [] = ys := by simpa using h
    exact .nil
  | cons x xs ih =>
    rw [List.mapM_cons] at h
    obtain ⟨y, hx, h⟩ := bind_eq_ok.mp h
    obtain ⟨zs, hxs, h⟩ := bind_eq_ok.mp h
    obtain rfl := Except.ok.inj h
    exact .cons hx (ih hxs)

theorem mapM_of_forall₂ {f : α → Except ε β} {xs : List α} {ys : List β}
    (h : List.Forall₂ (fun x y => f x = .ok y) xs ys) : xs.mapM f = .ok ys := by
  induction h with
  | nil => rfl
  | cons hfirst _ ih => rw [List.mapM_cons, hfirst, ok_bind, ih, ok_bind, pure_eq]

/-- What stands on the right of a related pair of rows has a partner on the left. -/
theorem exists_left_of_forall₂ {R : α → β → Prop} {xs : List α} {ys : List β}
    (h : List.Forall₂ R xs ys) {y : β} (hy : y ∈ ys) : ∃ x ∈ xs, R x y := by
  induction h with
  | nil => simp at hy
  | cons hr _ ih =>
    rcases List.mem_cons.mp hy with rfl | hy
    · exact ⟨_, by simp, hr⟩
    · obtain ⟨x, hx, hr⟩ := ih hy
      exact ⟨x, by simp [hx], hr⟩

theorem exists_mem_of_mapM {f : α → Except ε β} {xs : List α} {ys : List β}
    (h : xs.mapM f = .ok ys) : ∀ x ∈ xs, ∃ y ∈ ys, f x = .ok y := by
  intro x hx
  exact exists_left_of_forall₂ (forall₂_of_mapM h).flip hx

/-- Whatever was found in a row was found in one of its members. -/
theorem exists_source_of_mapM {f : α → Except ε β} {xs : List α} {ys : List β}
    (h : xs.mapM f = .ok ys) : ∀ y ∈ ys, ∃ x ∈ xs, f x = .ok y := by
  intro y hy
  exact exists_left_of_forall₂ (forall₂_of_mapM h) hy

theorem ok_of_mapM {f : α → Except ε β} {xs : List α} {ys : List β} (h : xs.mapM f = .ok ys) :
    ∀ x ∈ xs, ∃ y, f x = .ok y := by
  intro x hx
  obtain ⟨y, -, hy⟩ := exists_mem_of_mapM h x hx
  exact ⟨y, hy⟩

/-- A row all of whose members can be read can be read. -/
theorem exists_mapM {f : α → Except ε β} {xs : List α} (h : ∀ x ∈ xs, ∃ y, f x = .ok y) :
    ∃ ys, xs.mapM f = .ok ys := by
  induction xs with
  | nil => exact ⟨[], rfl⟩
  | cons x xs ih =>
    obtain ⟨y, hy⟩ := h x (by simp)
    obtain ⟨ys, hys⟩ := ih fun z hz => h z (by simp [hz])
    exact ⟨y :: ys, by simp [hy, hys]⟩

/-- Two readings of a row, one after the other, are one reading of it, where the first goes through. -/
theorem mapM_mapM {f : α → Except ε β} {g : β → Except ε γ} {xs : List α} {ys : List β}
    (h : xs.mapM f = .ok ys) : ys.mapM g = xs.mapM fun x => f x >>= g := by
  induction xs generalizing ys with
  | nil =>
    obtain rfl : [] = ys := by simpa using h
    rfl
  | cons x xs ih =>
    rw [List.mapM_cons] at h
    obtain ⟨y, hx, h⟩ := bind_eq_ok.mp h
    obtain ⟨zs, hxs, h⟩ := bind_eq_ok.mp h
    obtain rfl := Except.ok.inj h
    rw [List.mapM_cons, List.mapM_cons, hx, ih hxs]
    rfl

/-- Where each member of a row comes back from two readings, the row does. -/
theorem mapM_back {f : α → Except ε β} {g : β → Except ε γ} {h : α → γ} {xs : List α}
    (hback : ∀ x ∈ xs, (f x >>= g) = .ok (h x)) :
    (xs.mapM f >>= fun ys => ys.mapM g) = .ok (xs.map h) := by
  induction xs with
  | nil => rfl
  | cons x xs ih =>
    obtain ⟨y, hy, hgy⟩ := bind_eq_ok.mp (hback x (by simp))
    obtain ⟨ys, hys, hgys⟩ := bind_eq_ok.mp (ih fun x hx => hback x (by simp [hx]))
    simp only [List.mapM_cons, hy, hys, hgy, hgys, ok_bind, pure_eq, List.map_cons]

/-- What holds of the faults of both steps of a chain holds of the faults of the chain. -/
theorem fault_of_bind {P : ε → Prop} {x : Except ε α} {g : α → Except ε β} {e : ε}
    (hx : ∀ e, x = .error e → P e) (hg : ∀ a e, g a = .error e → P e) (h : (x >>= g) = .error e) :
    P e := by
  cases x with
  | ok a => exact hg a e h
  | error e' => exact hx e (by simpa using h)

theorem fault_of_mapM {P : ε → Prop} {g : α → Except ε β} {xs : List α} {e : ε}
    (hg : ∀ a e, g a = .error e → P e) (h : xs.mapM g = .error e) : P e := by
  obtain ⟨_, x, _, _, _, hx⟩ := mapM_eq_error.mp h
  exact hg x e hx

end TableGateway.Result
