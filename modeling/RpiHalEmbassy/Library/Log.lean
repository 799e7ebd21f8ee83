import Mathlib.Data.List.Basic

/-!
# Logs

A log grows at its end. `Each P` holds each entry to what had been logged when it
was written, which is how the order of two entries is stated without positions.
`After P` holds each entry to what has been logged since.
-/

namespace Logs
variable {α : Type*}

/-- What a filter reads of a log, entry by entry. -/
@[simp] theorem filterMap_cons_toList {β : Type*} (f : α → Option β) (x : α) (l : List α) :
    (x :: l).filterMap f = (f x).toList ++ l.filterMap f := by
  rw [List.filterMap_cons]
  cases f x <;> rfl

theorem snoc_eq_append_cons {l pre post : List α} {x y : α}
    (h : l ++ [x] = pre ++ y :: post) : (pre = l ∧ y = x) ∨ ∃ post', l = pre ++ y :: post' := by
  rcases List.eq_nil_or_concat post with rfl | ⟨post', z, rfl⟩
  · obtain ⟨hpre, hy⟩ := List.append_inj' h rfl
    exact Or.inl ⟨hpre.symm, (List.singleton_inj.mp hy).symm⟩
  · rw [List.concat_eq_append, ← List.cons_append, ← List.append_assoc] at h
    exact Or.inr ⟨post', (List.append_inj' h rfl).1⟩

/-- Two different entries of one log: one of them comes first. -/
theorem cut_twice {a b c d : List α} {x y : α} (h : a ++ x :: c = b ++ y :: d) (hne : x ≠ y) :
    (∃ m, b = a ++ x :: m ∧ c = m ++ y :: d) ∨ ∃ m, a = b ++ y :: m ∧ d = m ++ x :: c := by
  rcases List.append_eq_append_iff.mp h with ⟨m, rfl, hm⟩ | ⟨m, rfl, hm⟩
  · rcases m with _ | ⟨z, m⟩
    · exact absurd (List.cons.inj hm).1 hne
    · obtain ⟨rfl, rfl⟩ := List.cons.inj hm
      exact Or.inl ⟨m, rfl, rfl⟩
  · rcases m with _ | ⟨z, m⟩
    · exact absurd (List.cons.inj hm).1.symm hne
    · obtain ⟨rfl, rfl⟩ := List.cons.inj hm
      exact Or.inr ⟨m, rfl, rfl⟩

def Each (P : List α → α → Prop) (log : List α) : Prop :=
  ∀ pre x post, log = pre ++ x :: post → P pre x

theorem each_nil (P : List α → α → Prop) : Each P [] := fun pre _ _ h => by
  cases pre <;> cases h

theorem Each.snoc {P : List α → α → Prop} {log : List α} (h : Each P log) (x : α)
    (hx : P log x) : Each P (log ++ [x]) := fun pre y post heq => by
  rcases snoc_eq_append_cons heq with ⟨rfl, rfl⟩ | ⟨post', hpost⟩
  · exact hx
  · exact h pre y post' hpost

theorem Each.append {P : List α → α → Prop} {log : List α} (h : Each P log) (new : List α)
    (hnew : ∀ pre x post, new = pre ++ x :: post → P (log ++ pre) x) : Each P (log ++ new) := by
  induction new generalizing log with
  | nil => rwa [List.append_nil]
  | cons x new ih =>
    rw [List.append_cons]
    apply ih (h.snoc x (by simpa using hnew [] x new rfl))
    intro pre y post hy
    have hcut := hnew (x :: pre) y post (by rw [hy, List.cons_append])
    rwa [List.append_cons] at hcut

def After (P : α → List α → Prop) (log : List α) : Prop :=
  ∀ pre x post, log = pre ++ x :: post → P x post

theorem after_nil (P : α → List α → Prop) : After P [] := fun pre _ _ h => by
  cases pre <;> cases h

theorem After.cons {P : α → List α → Prop} {log : List α} (h : After P log) (x : α)
    (hx : P x log) : After P (x :: log) := fun pre y post heq => by
  rcases pre with _ | ⟨z, pre⟩
  · obtain ⟨rfl, rfl⟩ := List.cons.inj heq
    exact hx
  · exact h pre y post (List.cons.inj heq).2

theorem After.append {P P' : α → List α → Prop} {log new : List α} (h : After P log)
    (old : ∀ x post, P x post → P' x (post ++ new)) (hnew : After P' new) :
    After P' (log ++ new) := by
  induction log with
  | nil => exact hnew
  | cons x log ih =>
    have htail : After P log := fun pre y post heq => h (x :: pre) y post (by rw [heq]; rfl)
    exact (ih htail).cons x (old x log (h [] x log rfl))

end Logs
