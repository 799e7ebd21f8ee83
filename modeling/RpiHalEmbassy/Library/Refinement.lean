import Mathlib.Data.List.Basic
import RpiHalEmbassy.Library.Machine

/-!
# Refinement

A machine refines an abstract one if each of its steps is some run of the other
that shows the same. What a step shows is a list, and a run shows its steps' lists
one after another; an abstract label shows at most one thing, and the ones that
show nothing are the abstract machine's own business.
-/

namespace Machines
variable {σ ι τ κ ω : Type*}

/-- What the labels `is` show, taken one after another from `s`. -/
def Machine.shown (m : Machine σ ι) (emit : σ → ι → List ω) : σ → List ι → List ω
  | _, [] => []
  | s, i :: is => emit s i ++ m.shown emit (m.step s i) is

theorem Machine.shown_snoc (m : Machine σ ι) (emit : σ → ι → List ω) (s : σ) (is : List ι)
    (i : ι) : m.shown emit s (is ++ [i]) =
      m.shown emit s is ++ emit (is.foldl m.step s) i := by
  induction is generalizing s with
  | nil => simp [Machine.shown]
  | cons j is ih => simp only [List.cons_append, Machine.shown, ih, List.foldl_cons,
      List.append_assoc]

theorem Machine.shown_filterMap {ω' : Type*} (m : Machine σ ι) (emit : σ → ι → List ω)
    (f : ω → Option ω') (s : σ) (is : List ι) :
    m.shown (fun s i => (emit s i).filterMap f) s is = (m.shown emit s is).filterMap f := by
  induction is generalizing s with
  | nil => rfl
  | cons i is ih => rw [Machine.shown, Machine.shown, List.filterMap_append, ih]

/-- An invariant of the state and of what has been shown on the way to it. -/
theorem Machine.Run.shown_invariant {m : Machine σ ι} {emit : σ → ι → List ω}
    {P : List ω → σ → Prop} {s t : σ} {is : List ι} (h : m.Run s is t) (start : P [] s)
    (keeps : ∀ l u i, P l u → m.enabled u i → P (l ++ emit u i) (m.step u i)) :
    P (m.shown emit s is) t := by
  induction h with
  | nil => exact start
  | @snoc is u i hu he ih =>
    rw [m.shown_snoc, ← hu.end_eq]
    exact keeps _ u i ih he

structure Refines (m : Machine σ ι) (a : Machine τ κ) (R : σ → τ → Prop)
    (emit : σ → ι → List ω) (seen : κ → Option ω) : Prop where
  step : ∀ s t i, R s t → m.enabled s i →
    ∃ js t', a.Run t js t' ∧ js.filterMap seen = emit s i ∧ R (m.step s i) t'

theorem Refines.run {m : Machine σ ι} {a : Machine τ κ} {R : σ → τ → Prop}
    {emit : σ → ι → List ω} {seen : κ → Option ω} (h : Refines m a R emit seen)
    {s s' : σ} {t : τ} {is : List ι} (hR : R s t) (hrun : m.Run s is s') :
    ∃ js t', a.Run t js t' ∧ js.filterMap seen = m.shown emit s is ∧ R s' t' := by
  induction hrun with
  | nil => exact ⟨[], t, .nil, rfl, hR⟩
  | @snoc is u i hu he ih =>
    obtain ⟨js, v, hjs, hseen, hv⟩ := ih
    obtain ⟨ks, w, hks, hstep, hw⟩ := h.step u v i hv he
    refine ⟨js ++ ks, w, hjs.append hks, ?_, hw⟩
    rw [List.filterMap_append, hseen, hstep, m.shown_snoc, ← hu.end_eq]

end Machines
