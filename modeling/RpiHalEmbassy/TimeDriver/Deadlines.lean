import Mathlib.Algebra.Order.BigOperators.Group.List
import Mathlib.Algebra.Order.Group.Nat
import RpiHalEmbassy.TimeDriver.Driver

/-!
# No deadline is lost

Outside the critical section every finite expiry in the queue is covered: the
match flag is set, or Compare 1 matches no later than that expiry. A return from
the re-arm loop covers everything left in the queue, whatever went before it;
ticks and calls that do not re-arm keep what was covered.
-/

namespace RpiHalEmbassy.TimeDriver
open Machines

variable {W : Type} {Q : Queue W}

def Driver.Covered (d : Driver Q) : Prop :=
  ∀ w e, (w, e) ∈ Q.entries d.queue → e ≠ u64Max → d.timer.Covers e

theorem rearm_covers (turns : List TurnTicks) (d d' : Driver Q)
    (hshort : ∀ k ∈ turns, k.total < 2 ^ 31) (h : d.rearm turns = some d') : d'.Covered := by
  induction turns generalizing d with
  | nil => cases h
  | cons k ks ih =>
    simp only [Driver.rearm] at h
    split at h
    · next hok =>
      cases Option.some.inj h
      intro w e he _
      have hk : k.total < 2 ^ 31 := hshort k (List.mem_cons_self ..)
      have hahead := UInt64.lt_iff_toNat_lt.mp (Q.ahead_of_nextExpiration he)
      rw [SystemTimer.nowMicros_toNat] at hahead
      refine SystemTimer.setCompare1_covers
        (le_refl (d.timer.elapse k.drain).micros) ?_ hahead (Q.nextExpiration_le he) hok
      simp only [Driver.nextExpiration]
      unfold TurnTicks.total at hk
      omega
    · exact ih _ (fun j hj => hshort j (List.mem_cons_of_mem _ hj)) h

theorem turn_le_total {turns : List TurnTicks} {k : TurnTicks} (hk : k ∈ turns) :
    k.total ≤ (turns.map TurnTicks.total).sum :=
  List.single_le_sum (fun _ _ => Nat.zero_le _) _ (List.mem_map_of_mem hk)

theorem scheduleWake_covers {expiry : UInt64} {w : W} {turns : List TurnTicks} {d d' : Driver Q}
    (hd : d.Covered) (hshort : (turns.map TurnTicks.total).sum < 2 ^ 31)
    (h : d.scheduleWake expiry w turns = some d') : d'.Covered := by
  simp only [Driver.scheduleWake] at h
  split at h
  · exact rearm_covers turns _ d' (fun k hk => (turn_le_total hk).trans_lt hshort) h
  · next hunchanged =>
    cases Option.some.inj h
    intro v e he hfin
    -- The old head covers whatever was queued behind it.
    obtain ⟨u, f, hf, hfe, hffin⟩ :=
      Q.exists_le_of_unchanged (Bool.eq_false_iff.mpr hunchanged) he hfin
    exact SystemTimer.covers_mono (hd u f hf hffin) hfe

theorem exec_covers {d d' : Driver Q} {e : Event W} (hd : d.Covered)
    (hshort : e.sectionTicks < 2 ^ 31) (h : exec d e = some d') : d'.Covered := by
  cases e with
  | tick =>
    cases Option.some.inj h
    exact fun w e he hfin => SystemTimer.tick_covers (hd w e he hfin)
  | scheduleWake expiry w turns => exact scheduleWake_covers hd hshort h
  | onTimerIrq clear turns =>
    simp only [Event.sectionTicks] at hshort
    refine rearm_covers turns _ d' (fun k hk => ?_) h
    have hk := turn_le_total hk
    omega

theorem run_covered {d d' : Driver Q} {es : List (Event W)} (hd : d.Covered)
    (h : (driver Q).Run d es d') : d'.Covered :=
  h.invariant hd fun _ _ hu he => exec_covers hu he.1 (exec_of_enabled he)

theorem matched_of_due {t : SystemTimer} {e : UInt64} (h : t.Covers e) (hdue : e ≤ t.nowMicros) :
    t.matched = true := by
  have hdue := UInt64.le_iff_toNat_le.mp hdue
  rcases h with h | ⟨m, hlo, hhi, _⟩
  · exact h
  · omega

theorem no_deadline_lost (boot : Driver Q) (hempty : Q.entries boot.queue = [])
    (es : List (Event W)) (d : Driver Q) (h : (driver Q).Run boot.init es d)
    (w : W) (e : UInt64) (he : (w, e) ∈ Q.entries d.queue) (hfin : e ≠ u64Max) :
    (d.timer.matched = true ∨
        ∃ t, d.timer.nowMicros.toNat < t ∧ t ≤ e.toNat ∧ t % 2 ^ 32 = d.timer.c1) ∧
      (e ≤ d.timer.nowMicros → d.timer.matched = true) := by
  have hinit : boot.init.Covered := by
    intro v f hf
    rw [show Q.entries boot.init.queue = [] from hempty] at hf
    cases hf
  have hcovered := run_covered hinit h w e he hfin
  exact ⟨hcovered, matched_of_due hcovered⟩

/-- A deadline past the low word's wrap, a second one behind it and a spurious
interrupt, with a match latched before `init`. -/
theorem no_deadline_lost_across_the_wrap :
    ∃ d : Driver (listQueue Nat),
      (driver (listQueue Nat)).Run
        (Driver.init ⟨⟨2 ^ 32 - 50, 7, true⟩, [], false, []⟩)
        [.scheduleWake (UInt64.ofNat (2 ^ 32 + 10)) 1 [⟨⟨1, 1, 1⟩, 1⟩], .tick,
          .scheduleWake (UInt64.ofNat (2 ^ 32 + 20)) 2 [⟨⟨0, 1, 0⟩, 0⟩],
          .onTimerIrq 1 [⟨⟨0, 1, 0⟩, 2⟩]] d ∧
      (1, UInt64.ofNat (2 ^ 32 + 10)) ∈ (listQueue Nat).entries d.queue ∧
      (d.timer.matched = true ∨
        ∃ t, d.timer.nowMicros.toNat < t ∧ t ≤ 2 ^ 32 + 10 ∧ t % 2 ^ 32 = d.timer.c1) := by
  have hrun := (Machine.Run.nil (m := driver (listQueue Nat))
    (s := Driver.init ⟨⟨2 ^ 32 - 50, 7, true⟩, [], false, []⟩))
    |>.snoc (.scheduleWake (UInt64.ofNat (2 ^ 32 + 10)) 1 [⟨⟨1, 1, 1⟩, 1⟩]) (by decide)
    |>.snoc .tick (by decide)
    |>.snoc (.scheduleWake (UInt64.ofNat (2 ^ 32 + 20)) 2 [⟨⟨0, 1, 0⟩, 0⟩]) (by decide)
    |>.snoc (.onTimerIrq 1 [⟨⟨0, 1, 0⟩, 2⟩]) (by decide)
  refine ⟨_, hrun, ?_, ?_⟩
  · decide
  · exact (no_deadline_lost (Q := listQueue Nat) ⟨⟨2 ^ 32 - 50, 7, true⟩, [], false, []⟩ rfl _ _
      hrun 1 (UInt64.ofNat (2 ^ 32 + 10)) (by decide) (by decide)).1

/-! ### A set flag is serviced -/

theorem setCompare1_micros_le (deadline : UInt64) (k : SystemTimer.ArmTicks) (t : SystemTimer) :
    t.micros ≤ (t.setCompare1 deadline k).2.micros := by
  simp only [SystemTimer.setCompare1, SystemTimer.elapse_micros]
  omega

theorem rearm_ahead (turns : List TurnTicks) (d d' : Driver Q) (h : d.rearm turns = some d') :
    d.timer.micros ≤ d'.timer.micros ∧ d'.timer1IrqEnabled = d.timer1IrqEnabled ∧
      (d'.timer.micros < 2 ^ 64 → ∀ w e, (w, e) ∈ Q.entries d'.queue →
        d.timer.micros < e.toNat) := by
  induction turns generalizing d with
  | nil => cases h
  | cons k ks ih =>
    have harm := setCompare1_micros_le (d.nextExpiration k.drain).1 k.toArmTicks
      (d.timer.elapse k.drain)
    rw [SystemTimer.elapse_micros] at harm
    simp only [Driver.rearm] at h
    split at h
    · cases Option.some.inj h
      refine ⟨(Nat.le_add_right _ _).trans harm, rfl, fun hwrap w e he => ?_⟩
      have hahead := UInt64.lt_iff_toNat_lt.mp (Q.ahead_of_nextExpiration he)
      rw [SystemTimer.nowMicros_toNat, SystemTimer.elapse_micros] at hahead
      have hnow := harm.trans_lt hwrap
      omega
    · obtain ⟨hle, hirq, hleft⟩ := ih _ h
      have hstart := (Nat.le_add_right _ _).trans harm
      exact ⟨hstart.trans hle, hirq, fun hwrap w e he => hstart.trans_lt (hleft hwrap w e he)⟩

theorem drain_wakes {d : Driver Q} {n : Nat} {w : W} {e : UInt64}
    (he : (w, e) ∈ Q.entries d.queue) (hdue : e.toNat ≤ d.timer.micros)
    (hwrap : d.timer.micros + n < 2 ^ 64) :
    w ∈ (Q.nextExpiration (d.timer.elapse n).nowMicros d.queue).2.1 := by
  rw [(Q.nextExpiration_woken _ d.queue).mem_iff]
  refine List.mem_map.mpr ⟨(w, e), List.mem_filter.mpr ⟨he, decide_eq_true ?_⟩, rfl⟩
  rw [UInt64.le_iff_toNat_le, SystemTimer.nowMicros_toNat, SystemTimer.elapse_micros,
    Nat.mod_eq_of_lt hwrap]
  exact hdue.trans (Nat.le_add_right _ _)

/-- What is due when the loop begins is woken in its first turn. -/
theorem rearm_wakes (turns : List TurnTicks) (d d' : Driver Q) (h : d.rearm turns = some d') :
    ∃ ws, d'.woken = d.woken ++ ws ∧ (d'.timer.micros < 2 ^ 64 →
      ∀ w e, (w, e) ∈ Q.entries d.queue → e.toNat ≤ d.timer.micros → w ∈ ws) := by
  induction turns generalizing d with
  | nil => cases h
  | cons k ks ih =>
    have harm := setCompare1_micros_le (d.nextExpiration k.drain).1 k.toArmTicks
      (d.timer.elapse k.drain)
    rw [SystemTimer.elapse_micros] at harm
    simp only [Driver.rearm] at h
    split at h
    · cases Option.some.inj h
      exact ⟨_, rfl, fun hwrap w e he hdue => drain_wakes he hdue (harm.trans_lt hwrap)⟩
    · obtain ⟨ws, hws, _⟩ := ih _ h
      refine ⟨_ ++ ws, hws.trans (List.append_assoc ..), fun hwrap w e he hdue => ?_⟩
      have hnow := harm.trans ((rearm_ahead ks _ d' h).1)
      exact List.mem_append_left ws (drain_wakes he hdue (hnow.trans_lt hwrap))

theorem onIrq_ahead {clear : Nat} {turns : List TurnTicks} {d d' : Driver Q}
    (h : d.onIrq clear turns = some d') :
    d.timer.micros ≤ d'.timer.micros ∧ d'.timer1IrqEnabled = d.timer1IrqEnabled ∧
      (d'.timer.micros < 2 ^ 64 → ∀ w e, (w, e) ∈ Q.entries d'.queue →
        d.timer.micros < e.toNat) := by
  obtain ⟨hle, hirq, hleft⟩ := rearm_ahead turns _ d' h
  simp only [SystemTimer.clearCompare1Match, SystemTimer.elapse_micros] at hle hleft
  exact ⟨(Nat.le_add_right _ _).trans hle, hirq, fun hwrap w e he =>
    (Nat.le_add_right _ _).trans_lt (hleft hwrap w e he)⟩

/-- The interrupt wakes all that was due when it was taken, and leaves none of it queued. -/
theorem onIrq_wakes {clear : Nat} {turns : List TurnTicks} {d d' : Driver Q}
    (h : d.onIrq clear turns = some d') (hwrap : d'.timer.micros < 2 ^ 64) {w : W} {e : UInt64}
    (he : (w, e) ∈ Q.entries d.queue) (hdue : e.toNat ≤ d.timer.micros) :
    (∃ ws, d'.woken = d.woken ++ ws ∧ w ∈ ws) ∧
      ∀ v f, (v, f) ∈ Q.entries d'.queue → d.timer.micros < f.toNat := by
  obtain ⟨ws, hws, hwakes⟩ := rearm_wakes turns _ d' h
  refine ⟨⟨ws, hws, hwakes hwrap w e he ?_⟩, (onIrq_ahead h).2.2 hwrap⟩
  simp only [SystemTimer.clearCompare1Match, SystemTimer.elapse_micros]
  exact hdue.trans (Nat.le_add_right _ _)

end RpiHalEmbassy.TimeDriver
