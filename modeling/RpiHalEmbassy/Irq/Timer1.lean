import RpiHalEmbassy.Irq.Dispatch
import RpiHalEmbassy.TimeDriver.Arming

/-!
# What an entry does to the driver

The driver's part in `dispatch` is time passing, one `on_timer_irq` if Compare 1 is
pending, and time passing again. An entry with Compare 1 pending leaves no expiry
behind that had come due when it began.
-/

namespace RpiHalEmbassy.Irq
open Machines TimeDriver

variable {W : Type} {Q : Queue W}

def after (d : Driver Q) (n : Nat) : Driver Q := { d with timer := d.timer.elapse n }

theorem elapse_elapse (n m : Nat) (t : SystemTimer) :
    (t.elapse n).elapse m = t.elapse (n + m) := by
  induction n generalizing t with
  | zero => rw [Nat.zero_add, SystemTimer.elapse]
  | succ n ih => rw [Nat.succ_add, SystemTimer.elapse, SystemTimer.elapse, ih]

theorem after_after (d : Driver Q) (n m : Nat) : after (after d n) m = after d (n + m) := by
  simp only [after, elapse_elapse]

theorem run_after (d : Driver Q) (n : Nat) :
    (driver Q).Run d (.replicate n .tick) (after d n) := by
  induction n generalizing d with
  | zero => exact .nil
  | succ n ih =>
    exact .cons ⟨Nat.two_pow_pos 31, rfl⟩ (ih { d with timer := d.timer.tick })

theorem pass_driver (es : List Env) (s : Soc Q) : ∃ n, (s.pass es).driver = after s.driver n := by
  induction es generalizing s with
  | nil => exact ⟨0, rfl⟩
  | cons e es ih =>
    obtain ⟨n, hn⟩ := ih (s.happens e)
    cases e with
    | tick => exact ⟨n + 1, hn⟩
    | raise l => exact ⟨n, hn⟩

theorem serveAll_driver (hal : RpiHal) (gap : Line → List Env) (hs : List Handler) (s : Soc Q) :
    ∃ n, (hs.foldl (Soc.serve hal gap) s).driver = after s.driver n := by
  induction hs generalizing s with
  | nil => exact ⟨0, rfl⟩
  | cons h hs ih =>
    obtain ⟨es, hes⟩ := Soc.anyPending_pass gap h.lines s
    obtain ⟨n, hn⟩ := pass_driver es s
    have hserve : (Soc.serve hal gap s h).driver = after s.driver n := by
      rw [← hn, ← hes]
      simp only [Soc.serve]
      split
      · rfl
      · rfl
    obtain ⟨m, hm⟩ := ih (Soc.serve hal gap s h)
    exact ⟨n + m, by rw [List.foldl_cons, hm, hserve, after_after]⟩

theorem dispatch_driver {hal : RpiHal} {async : Bool} {k : Entry} {s t : Soc Q}
    (h : dispatch hal async k s = some t) :
    ∃ n d m, t.driver = after d m ∧
      (d = after s.driver n ∧ s.timer1Pending = false ∨
        (after s.driver n).onIrq k.clear k.turns = some d) := by
  obtain ⟨u, hu, rfl⟩ := Option.map_eq_some_iff.mp h
  have hothers : ∃ m, (if async = true then handlers.foldl (Soc.serve hal k.gap) u else u).driver =
      after u.driver m := by
    split
    · exact serveAll_driver hal k.gap handlers u
    · exact ⟨0, rfl⟩
  obtain ⟨m, hm⟩ := hothers
  obtain ⟨n, hn⟩ := pass_driver k.timer1 s
  refine ⟨n, u.driver, m, hm, ?_⟩
  simp only [serveTimer1] at hu
  split at hu
  · obtain ⟨d, hd, rfl⟩ := Option.map_eq_some_iff.mp hu
    rw [hn] at hd
    exact Or.inr hd
  · next hnot =>
    cases Option.some.inj hu
    refine Or.inl ⟨hn, ?_⟩
    by_contra hpending
    exact hnot (Soc.pass_timer1Pending _ (Bool.not_eq_false _ ▸ hpending))

theorem dispatch_run {hal : RpiHal} {async : Bool} {k : Entry} {s t : Soc Q}
    (h : dispatch hal async k s = some t)
    (hshort : (TimeDriver.Event.onTimerIrq (W := W) k.clear k.turns).sectionTicks < 2 ^ 31) :
    ∃ es, (driver Q).Run s.driver es t.driver := by
  obtain ⟨n, d, m, ht, hd⟩ := dispatch_driver h
  have hbefore := run_after s.driver n
  have hbehind := run_after d m
  rw [← ht] at hbehind
  rcases hd with ⟨rfl, _⟩ | hirq
  · exact ⟨_, hbefore.append hbehind⟩
  · have hstep : (driver Q).step (after s.driver n) (.onTimerIrq k.clear k.turns) = d := by
      simp only [driver, TimeDriver.exec, hirq, Option.getD_some]
    have hrun := hbefore.snoc (.onTimerIrq k.clear k.turns) ⟨hshort, by
      simp only [TimeDriver.exec, hirq, Option.isSome_some]⟩
    rw [hstep] at hrun
    exact ⟨_, hrun.append hbehind⟩

end RpiHalEmbassy.Irq
