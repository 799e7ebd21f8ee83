import Mathlib.Algebra.Order.Group.Nat
import RpiHalEmbassy.Library.Refinement

/-!
# Throttles

A throttle fires no earlier than the time it is due, and each firing puts the next at
least `gap` behind it. However long it has been left alone and wherever it was due when
the watching began, it fires at most once in each `gap` that goes by, and once more.
-/

namespace Machines
variable {σ ι ω : Type*}

structure Throttle where
  due : Nat
  now : Nat

inductive Beat (ω : Type*) where
  | wait (due now : Nat)
  | fire (time due now : Nat) (x : ω)

def Beat.fired : Beat ω → Option ω
  | .wait _ _ => none
  | .fire _ _ _ x => some x

/-- What is due is only ever put off. -/
def throttle (gap : Nat) : Machine Throttle (Beat ω) where
  enabled t
    | .wait due now => t.due ≤ due ∧ t.now ≤ now
    | .fire time due now _ => (t.due ≤ time ∧ time + gap ≤ due) ∧ t.now ≤ time ∧ time ≤ now
  step _
    | .wait due now => ⟨due, now⟩
    | .fire _ due now _ => ⟨due, now⟩

/-- Behind `n` firings since `start`. -/
structure Throttle.Fired (start gap n : Nat) (t : Throttle) : Prop where
  past : start ≤ t.now
  fired : n * gap ≤ t.now - start + gap
  due : 0 < n → start + n * gap ≤ t.due

theorem Throttle.Fired.later {start gap n due now : Nat} {t : Throttle}
    (h : t.Fired start gap n) (hdue : t.due ≤ due) (hnow : t.now ≤ now) :
    Throttle.Fired start gap n ⟨due, now⟩ := by
  have hpast := h.past
  have hfired := h.fired
  refine ⟨hpast.trans hnow, ?_, fun hn => (h.due hn).trans hdue⟩
  show n * gap ≤ now - start + gap
  omega

theorem Throttle.Fired.again {start gap n time due now : Nat} {t : Throttle}
    (h : t.Fired start gap n) (hdue : t.due ≤ time) (hnext : time + gap ≤ due)
    (hread : t.now ≤ time) (hnow : time ≤ now) :
    Throttle.Fired start gap (n + 1) ⟨due, now⟩ := by
  have hpast : start ≤ time := h.past.trans hread
  have hreached : start + n * gap ≤ time := by
    cases n with
    | zero => rwa [Nat.zero_mul]
    | succ n => exact (h.due n.succ_pos).trans hdue
  refine ⟨hpast.trans hnow, ?_, fun _ => ?_⟩
  · show (n + 1) * gap ≤ now - start + gap
    rw [Nat.succ_mul]
    omega
  · show start + (n + 1) * gap ≤ due
    rw [Nat.succ_mul]
    omega

theorem throttle_fired {gap : Nat} {s t : Throttle} {is : List (Beat ω)}
    (h : (throttle gap).Run s is t) : t.Fired s.now gap (is.filterMap Beat.fired).length := by
  induction h with
  | nil => exact ⟨le_rfl, by simp, fun hn => absurd hn (Nat.lt_irrefl 0)⟩
  | @snoc is u i _ he ih =>
    rw [List.filterMap_append, List.length_append]
    cases i with
    | wait due now => exact ih.later he.1 he.2
    | fire time due now x => exact ih.again he.1.1 he.1.2 he.2.1 he.2.2

/-- A machine that refines a throttle fires once in each `gap` that goes by, and once more. -/
theorem Refines.throttled {m : Machine σ ι} {gap : Nat} (due now : σ → Nat)
    {emit : σ → ι → List ω}
    (h : Refines m (throttle gap) (fun s t => t = ⟨due s, now s⟩) emit Beat.fired)
    (hgap : 0 < gap) {s s' : σ} {is : List ι} (hrun : m.Run s is s') :
    (m.shown emit s is).length ≤ (now s' - now s) / gap + 1 := by
  obtain ⟨js, t, hjs, hshown, rfl⟩ := h.run rfl hrun
  have hfired := (throttle_fired hjs).fired
  rw [hshown] at hfired
  have hfired : (m.shown emit s is).length * gap ≤ now s' - now s + gap := hfired
  rw [← Nat.add_div_right _ hgap]
  exact (Nat.le_div_iff_mul_le hgap).mpr hfired

end Machines
